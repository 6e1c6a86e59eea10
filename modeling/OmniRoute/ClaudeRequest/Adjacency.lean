import OmniRoute.ClaudeRequest.Blocks

/-!
# Results next to their calls

`enforceToolResultAdjacency`: every result leaves its user message and goes into one of its own
behind the assistant message with its call; a result that finds no call, or whose call has one
already, stays as a text. A message is known by its position, as the maps of the source know it by
its identity.

**Main result (`exchanges_enforce`).** Where calls have distinct ids and every call one result, each
message with calls is followed by exactly their results, in their order, and no text changes.
-/

namespace OmniRoute.ClaudeRequest

open ToolPairing List Option OrdMap Block

variable {N : Type}

/-! ## The source -/

/-- The id of a call, if it is not empty. -/
def useId : Block N → Option String
  | .toolUse id _ => truthyId id
  | _ => none

/-- `block.tool_use_id`, empty if there is none. -/
def resultId : Block N → String
  | .toolResult id _ => id.getD ""
  | _ => ""

def noteToolUse (position : ℕ) (assistantByToolUseId : OrdMap String ℕ) (block : Block N) :
    OrdMap String ℕ :=
  match useId block with
  | none => assistantByToolUseId
  | some id =>
    if (assistantByToolUseId.get id).isSome then assistantByToolUseId
    else assistantByToolUseId.set id position

def noteMessage (assistantByToolUseId : OrdMap String ℕ) (m : ClaudeMessage N × ℕ) :
    OrdMap String ℕ :=
  if m.1.role = .assistant then m.1.content.foldl (noteToolUse m.2) assistantByToolUseId
  else assistantByToolUseId

def indexAssistantToolUses (messages : List (ClaudeMessage N)) : OrdMap String ℕ :=
  messages.zipIdx.foldl noteMessage empty

section Text

variable [JsonNumber N]

/-- A result that is not paired. -/
def unpairedText (block : Block N) : Block N :=
  let toolUseId := resultId block
  let content := match block with
    | .toolResult _ fields => (fields.lookup "content").getD (.str "")
    | _ => .str ""
  let serialized := match content with
    | .str text => text
    | .null => (Json.str "" : Json N).stringify
    | content => content.stringify
  textBlock (.str ("[Unpaired tool result " ++ (if toolUseId = "" then "unknown" else toolUseId) ++
    "]\n" ++ serialized))

/-- The results by message, and the blocks of the message that stay. -/
structure Collecting (N : Type) where
  resultsByAssistant : OrdMap ℕ (List (Block N))
  remainingBlocks : List (Block N) := []

omit [JsonNumber N] in
def collectMatchedToolResult (assistantByToolUseId : OrdMap String ℕ)
    (resultsByAssistant : OrdMap ℕ (List (Block N))) (block : Block N) :
    Option (OrdMap ℕ (List (Block N))) :=
  let toolUseId := resultId block
  match if toolUseId = "" then none else assistantByToolUseId.get toolUseId with
  | none => none
  | some assistant =>
    let grouped := (resultsByAssistant.get assistant).getD []
    if grouped.any fun toolResult => resultId toolResult = toolUseId then none
    else some (resultsByAssistant.set assistant (grouped ++ [block]))

def collectBlock (assistantByToolUseId : OrdMap String ℕ) (s : Collecting N) (block : Block N) :
    Collecting N :=
  if !block.isToolResult then { s with remainingBlocks := s.remainingBlocks ++ [block] }
  else
    match collectMatchedToolResult assistantByToolUseId s.resultsByAssistant block with
    | some resultsByAssistant => { s with resultsByAssistant }
    | none => { s with remainingBlocks := s.remainingBlocks ++ [unpairedText block] }

/-- The results by message, and the messages that are left, with their positions. -/
structure Stripping (N : Type) where
  resultsByAssistant : OrdMap ℕ (List (Block N)) := empty
  strippedMessages : List (ClaudeMessage N × ℕ) := []

def stripAndCollectToolResults (assistantByToolUseId : OrdMap String ℕ) (s : Stripping N)
    (m : ClaudeMessage N × ℕ) : Stripping N :=
  if m.1.role ≠ .user then { s with strippedMessages := s.strippedMessages ++ [m] }
  else
    let collected := m.1.content.foldl (collectBlock assistantByToolUseId) ⟨s.resultsByAssistant, []⟩
    { resultsByAssistant := collected.resultsByAssistant
      strippedMessages := s.strippedMessages ++
        if collected.remainingBlocks = [] then []
        else [({ m.1 with content := collected.remainingBlocks }, m.2)] }

omit [JsonNumber N] in
def orderedResultsForAssistant (resultsByAssistant : OrdMap ℕ (List (Block N)))
    (m : ClaudeMessage N × ℕ) : List (Block N) :=
  if m.1.role ≠ .assistant then []
  else
    let grouped := (resultsByAssistant.get m.2).getD []
    m.1.content.flatMap fun block =>
      match useId block with
      | none => []
      | some id => grouped.filter fun toolResult => resultId toolResult = id

omit [JsonNumber N] in
def insertAdjacentToolResults (resultsByAssistant : OrdMap ℕ (List (Block N)))
    (messages : List (ClaudeMessage N × ℕ)) : List (ClaudeMessage N) :=
  messages.flatMap fun m =>
    let adjacentResults := orderedResultsForAssistant resultsByAssistant m
    m.1 :: if adjacentResults = [] then [] else [⟨.user, adjacentResults⟩]

def enforceToolResultAdjacency (messages : List (ClaudeMessage N)) : List (ClaudeMessage N) :=
  let s := messages.zipIdx.foldl
    (stripAndCollectToolResults (indexAssistantToolUses messages)) {}
  insertAdjacentToolResults s.resultsByAssistant s.strippedMessages

end Text

/-! ## What a list of messages says -/

def ClaudeMessage.uses (m : ClaudeMessage N) : List (Block N) := m.content.filter isToolUse

def ClaudeMessage.results (m : ClaudeMessage N) : List (Block N) :=
  m.content.filter isToolResult

/-- The texts of a message, with who says them. -/
def ClaudeMessage.texts (m : ClaudeMessage N) : List (Role × Json N) :=
  (m.content.filterMap blockText).map fun text => (m.role, text)

/-- All texts, in order. -/
def texts (ms : List (ClaudeMessage N)) : List (Role × Json N) := ms.flatMap ClaudeMessage.texts

/-- The calls of each message that has any, with the content of the user message after it. -/
def exchanges : List (ClaudeMessage N) → List (List (Block N) × Option (List (Block N)))
  | [] => []
  | m :: rest =>
    if m.role = .assistant ∧ m.uses ≠ [] then
      (m.uses, rest.head?.bind fun u => if u.role = .user then some u.content else none) ::
        exchanges rest
    else exchanges rest

/-- The calls of a message, if it has any. -/
def group (m : ClaudeMessage N) : Option (List (Block N)) :=
  if m.role = .assistant ∧ m.uses ≠ [] then some m.uses else none

/-- A message of the user has no calls, one of the assistant no results. -/
def Sided (m : ClaudeMessage N) : Prop :=
  m.role = .user ∧ m.uses = [] ∨ m.role = .assistant ∧ m.results = []

def callIds (ms : List (ClaudeMessage N)) : List String :=
  ms.flatMap fun m => m.content.filterMap useId

def results (ms : List (ClaudeMessage N)) : List (Block N) := ms.flatMap ClaudeMessage.results

/-- The calls have distinct ids, and every call one result. -/
structure Matched (ms : List (ClaudeMessage N)) : Prop where
  sided : ∀ m ∈ ms, Sided m
  named : ∀ m ∈ ms, ∀ u ∈ m.uses, (useId u).isSome = true
  distinct : (callIds ms).Nodup
  answered : ((results ms).map resultId).Perm (callIds ms)

/-- The results of the calls of a message, in the order of the calls. -/
def answers (all : List (Block N)) (m : ClaudeMessage N) : List (Block N) :=
  (m.content.filterMap useId).flatMap fun id => all.filter fun r => decide (resultId r = id)

/-! ## Positions -/

theorem flatMap_zipIdx {α β : Type} (f : α → List β) (l : List α) :
    (l.zipIdx.flatMap fun p => f p.1) = l.flatMap f := by
  have hmap := zipIdx_map_fst 0 l
  conv_rhs => rw [← hmap, flatMap_map]

theorem filterMap_zipIdx {α β : Type} (f : α → Option β) (l : List α) :
    (l.zipIdx.filterMap fun p => f p.1) = l.filterMap f := by
  have hmap := zipIdx_map_fst 0 l
  conv_rhs => rw [← hmap, filterMap_map]
  rfl

theorem mem_of_mem_zipIdx {α : Type} {l : List α} {p : α × ℕ} (h : p ∈ l.zipIdx) : p.1 ∈ l :=
  (mem_zipIdx' h).2 ▸ getElem_mem _

/-! ## The index -/

/-- The ids of the calls of a message, with its position. -/
def notedIds (m : ClaudeMessage N × ℕ) : List (String × ℕ) :=
  if m.1.role = .assistant then (m.1.content.filterMap useId).map fun id => (id, m.2) else []

/-- The first position of an id is noted. -/
def noteFirst (index : OrdMap String ℕ) (p : String × ℕ) : OrdMap String ℕ :=
  if (index.get p.1).isSome then index else index.set p.1 p.2

theorem noteMessage_eq (index : OrdMap String ℕ) (m : ClaudeMessage N × ℕ) :
    noteMessage index m = (notedIds m).foldl noteFirst index := by
  unfold noteMessage notedIds
  split
  · generalize m.1.content = bs
    induction bs generalizing index with
    | nil => rfl
    | cons b bs ih =>
      rw [foldl_cons, ih, noteToolUse]
      cases hid : useId b with
      | none => rw [filterMap_cons_none hid]
      | some id =>
        rw [filterMap_cons_some hid, map_cons, foldl_cons]
        rfl
  · rfl

theorem get_foldl_noteFirst (l : List (String × ℕ)) (index : OrdMap String ℕ) (id : String) :
    (l.foldl noteFirst index).get id =
      (index.get id).or ((l.find? fun p => p.1 = id).map Prod.snd) := by
  induction l generalizing index with
  | nil => exact (or_none).symm
  | cons p l ih =>
    rw [foldl_cons, ih, noteFirst]
    by_cases hp : p.1 = id
    · subst hp
      rw [find?_cons_of_pos (by simp)]
      cases hget : index.get p.1 with
      | none => simp
      | some q => simp [hget]
    · rw [find?_cons_of_neg (by simpa using hp)]
      split
      · rfl
      · rw [get_set_ne _ (Ne.symm hp)]

theorem get_index (messages : List (ClaudeMessage N)) (id : String) :
    (indexAssistantToolUses messages).get id =
      ((messages.zipIdx.flatMap notedIds).find? fun p => p.1 = id).map Prod.snd := by
  have hfold : indexAssistantToolUses messages =
      (messages.zipIdx.flatMap notedIds).foldl noteFirst empty := by
    unfold indexAssistantToolUses
    rw [foldl_flatMap]
    congr 1
    funext index m
    exact noteMessage_eq index m
  rw [hfold, get_foldl_noteFirst, get_empty, none_or]

/-- With distinct ids the index has every call at its message. -/
theorem get_index_of_mem {messages : List (ClaudeMessage N)}
    (hdistinct : ((messages.zipIdx.flatMap notedIds).map Prod.fst).Nodup) {id : String}
    {m : ClaudeMessage N × ℕ} (hm : m ∈ messages.zipIdx) (hid : (id, m.2) ∈ notedIds m) :
    (indexAssistantToolUses messages).get id = some m.2 := by
  have hmem : (id, m.2) ∈ messages.zipIdx.flatMap notedIds := mem_flatMap.2 ⟨m, hm, hid⟩
  rw [get_index]
  cases hfind : (messages.zipIdx.flatMap notedIds).find? fun p => p.1 = id with
  | none => exact absurd (find?_eq_none.1 hfind _ hmem) (by simp)
  | some p =>
    have hp : p.1 = id := by simpa using find?_some hfind
    have hsame := inj_on_of_nodup_map hdistinct (mem_of_find?_eq_some hfind) hmem hp
    rw [hsame]
    rfl

/-! ## Collecting -/

section Collect

theorem useId_none_of_not_use {b : Block N} (h : b.isToolUse = false) : useId b = none := by
  cases b with
  | toolUse id fields => cases h
  | _ => rfl

variable {m : ClaudeMessage N}

theorem callIds_of_uses_nil (h : m.uses = []) : m.content.filterMap useId = [] := by
  refine filterMap_eq_nil_iff.2 fun b hb => useId_none_of_not_use ?_
  have hnot := filter_eq_nil_iff.1 h b hb
  simpa using hnot

variable {ms : List (ClaudeMessage N)}

theorem notedIds_eq (h : ∀ m ∈ ms, Sided m) :
    ((ms.zipIdx.flatMap notedIds).map Prod.fst) = callIds ms := by
  have hone : ∀ p ∈ ms.zipIdx, (notedIds p).map Prod.fst = p.1.content.filterMap useId := by
    intro p hp
    rcases h p.1 (mem_of_mem_zipIdx hp) with ⟨hrole, huses⟩ | ⟨hrole, -⟩
    · rw [notedIds, if_neg (by rw [hrole]; decide), callIds_of_uses_nil huses]
      rfl
    · rw [notedIds, if_pos hrole, List.map_map]
      exact List.map_id _
  rw [map_flatMap, flatMap_congr hone]
  exact flatMap_zipIdx (fun m => m.content.filterMap useId) ms

theorem useId_ne_empty {b : Block N} {id : String} (h : useId b = some id) : id ≠ "" := by
  cases b with
  | toolUse id' fields => exact (truthyId_eq_some.1 h).2
  | _ => cases h

theorem Matched.known (h : Matched ms) {id : String} (hid : id ∈ callIds ms) :
    id ≠ "" ∧ ((indexAssistantToolUses ms).get id).isSome = true := by
  have hnoted := notedIds_eq h.sided
  rw [← hnoted] at hid
  obtain ⟨p, hp, rfl⟩ := mem_map.1 hid
  obtain ⟨m, hm, hpm⟩ := mem_flatMap.1 hp
  have hpos : p.2 = m.2 := by
    unfold notedIds at hpm
    split at hpm
    · obtain ⟨id', -, rfl⟩ := mem_map.1 hpm
      rfl
    · cases hpm
  refine ⟨?_, ?_⟩
  · rw [hnoted] at hid
    obtain ⟨m', -, hid⟩ := mem_flatMap.1 hid
    obtain ⟨b, -, hb⟩ := mem_filterMap.1 hid
    exact useId_ne_empty hb
  · have hmem : (p.1, m.2) ∈ notedIds m := hpos ▸ hpm
    rw [get_index_of_mem (hnoted ▸ h.distinct) hm hmem]
    rfl

/-- A message with calls has answers. -/
theorem Matched.answers_ne_nil (h : Matched ms) (hm : m ∈ ms)
    (huses : m.uses ≠ []) : answers (results ms) m ≠ [] := by
  obtain ⟨u, hu⟩ := exists_mem_of_ne_nil _ huses
  obtain ⟨id, hid⟩ := isSome_iff_exists.1 (h.named m hm u hu)
  have hcontent : id ∈ m.content.filterMap useId :=
    mem_filterMap.2 ⟨u, mem_of_mem_filter hu, hid⟩
  have hcall : id ∈ callIds ms := mem_flatMap.2 ⟨m, hm, hcontent⟩
  obtain ⟨r, hr, hrid⟩ := mem_map.1 (h.answered.mem_iff.2 hcall)
  refine ne_nil_of_mem (a := r) (mem_flatMap.2 ⟨id, hcontent, ?_⟩)
  exact mem_filter.2 ⟨hr, decide_eq_true hrid⟩

theorem exchanges_cons_of_not (h : ¬(m.role = .assistant ∧ m.uses ≠ []))
    (rest : List (ClaudeMessage N)) : exchanges (m :: rest) = exchanges rest := by
  rw [exchanges, if_neg h]

theorem blockText_of_result {b : Block N} (h : b.isToolResult = true) : blockText b = none := by
  cases b with
  | toolUse id fields => cases h
  | toolResult id fields => rfl
  | other value => cases h

theorem exchanges_fst (ms : List (ClaudeMessage N)) :
    (exchanges ms).map Prod.fst = ms.filterMap group := by
  induction ms with
  | nil => rfl
  | cons m ms ih =>
    rw [exchanges]
    by_cases hm : m.role = .assistant ∧ m.uses ≠ []
    · have hgroup : group m = some m.uses := if_pos hm
      rw [if_pos hm, map_cons, ih, filterMap_cons_some hgroup]
    · have hgroup : group m = none := if_neg hm
      rw [if_neg hm, ih, filterMap_cons_none hgroup]

theorem group_user (h : m.role = .user) : group m = none :=
  if_neg fun hc => absurd (hc.1.symm.trans h) (by decide)

theorem filterMap_cons_toList {α β : Type} (f : α → Option β) (a : α) (l : List α) :
    (a :: l).filterMap f = (f a).toList ++ l.filterMap f := by
  rw [filterMap_cons]
  cases f a <;> rfl

theorem groups_insert (resultsByAssistant : OrdMap ℕ (List (Block N)))
    (l : List (ClaudeMessage N × ℕ)) :
    (insertAdjacentToolResults resultsByAssistant l).filterMap group =
      l.filterMap fun p => group p.1 := by
  unfold insertAdjacentToolResults
  dsimp only
  induction l with
  | nil => rfl
  | cons p l ih =>
    have hinserted : (if orderedResultsForAssistant resultsByAssistant p = [] then []
        else [⟨.user, orderedResultsForAssistant resultsByAssistant p⟩] :
          List (ClaudeMessage N)).filterMap group = [] := by
      split
      · rfl
      · exact filterMap_cons_none (group_user rfl)
    rw [flatMap_cons, filterMap_append, ih, filterMap_cons_toList, hinserted,
      append_nil, filterMap_cons_toList]

variable [JsonNumber N]

/-- The results collected so far are `collected`, each with its message. -/
def Holds (index : OrdMap String ℕ) (collected : List (Block N))
    (resultsByAssistant : OrdMap ℕ (List (Block N))) : Prop :=
  ∀ a, (resultsByAssistant.get a).getD [] =
    collected.filter fun r => decide (index.get (resultId r) = some a)

variable {collected : List (Block N)} {index : OrdMap String ℕ}

omit [JsonNumber N] in
/-- A result whose call is known and has no result yet is collected. -/
theorem Holds.collect {resultsByAssistant : OrdMap ℕ (List (Block N))}
    (h : Holds index collected resultsByAssistant) {block : Block N}
    (hknown : resultId block ≠ "" ∧ (index.get (resultId block)).isSome = true)
    (hnew : resultId block ∉ collected.map resultId) :
    ∃ results', collectMatchedToolResult index resultsByAssistant block = some results' ∧
      Holds index (collected ++ [block]) results' := by
  obtain ⟨a, ha⟩ := isSome_iff_exists.1 hknown.2
  have hnone : (((resultsByAssistant.get a).getD []).any fun toolResult =>
      decide (resultId toolResult = resultId block)) = false := by
    rw [List.any_eq_false, h a]
    intro r hr hsame
    exact hnew (mem_map.2 ⟨r, mem_of_mem_filter hr, of_decide_eq_true hsame⟩)
  refine ⟨resultsByAssistant.set a ((resultsByAssistant.get a).getD [] ++ [block]), ?_, ?_⟩
  · unfold collectMatchedToolResult
    dsimp only
    rw [if_neg hknown.1, ha]
    dsimp only
    rw [hnone]
    rfl
  · intro a'
    rw [filter_append, ← h a', get_set]
    by_cases haa : a' = a
    · subst haa
      rw [if_pos rfl, filter_cons_of_pos (by simpa using ha)]
      rfl
    · have hne : ¬some a = some a' := fun heq => haa (some.inj heq).symm
      rw [if_neg haa, filter_cons_of_neg (by simpa [ha] using hne)]
      exact (append_nil _).symm

/-- What a user message leaves. -/
def remaining (bs : List (Block N)) : List (Block N) := bs.filter fun block => !block.isToolResult

theorem foldl_collectBlock {bs : List (Block N)} (hknown : ∀ r ∈ bs.filter isToolResult,
      resultId r ≠ "" ∧ (index.get (resultId r)).isSome = true) {s : Collecting N}
    (h : Holds index collected s.resultsByAssistant)
    (hdistinct : ((collected ++ bs.filter isToolResult).map resultId).Nodup) :
    ∃ s', bs.foldl (collectBlock index) s = s' ∧
      s'.remainingBlocks = s.remainingBlocks ++ remaining bs ∧
      Holds index (collected ++ bs.filter isToolResult) s'.resultsByAssistant := by
  induction bs generalizing collected s with
  | nil =>
    refine ⟨s, rfl, (append_nil _).symm, ?_⟩
    rw [filter_nil, append_nil]
    exact h
  | cons b bs ih =>
    rw [foldl_cons, collectBlock]
    by_cases hb : b.isToolResult = true
    · rw [filter_cons_of_pos hb] at hknown hdistinct ⊢
      have hsplit : collected ++ b :: bs.filter isToolResult =
          (collected ++ [b]) ++ bs.filter isToolResult := by
        rw [append_assoc]
        rfl
      rw [hsplit] at hdistinct ⊢
      have hnew : resultId b ∉ collected.map resultId := by
        intro hmem
        rw [map_append, map_append] at hdistinct
        have hfirst := (nodup_append.1 hdistinct).1
        exact (nodup_append.1 hfirst).2.2 _ hmem _ (mem_singleton_self _) rfl
      obtain ⟨results', hcollect, hholds⟩ := h.collect (hknown b mem_cons_self) hnew
      have hleave : remaining (b :: bs) = remaining bs := filter_cons_of_neg (by simp [hb])
      rw [hb, hcollect, hleave]
      exact ih (fun r hr => hknown r (mem_cons_of_mem _ hr))
        (s := { s with resultsByAssistant := results' }) hholds hdistinct
    · rw [filter_cons_of_neg hb] at hknown hdistinct ⊢
      have hleave : remaining (b :: bs) = b :: remaining bs := filter_cons_of_pos (by simp [hb])
      obtain ⟨s', hs', hremaining, hholds⟩ := ih hknown
        (s := { s with remainingBlocks := s.remainingBlocks ++ [b] }) h hdistinct
      refine ⟨s', ?_, ?_, hholds⟩
      · rw [if_pos (by simp [hb])]
        exact hs'
      · rw [hremaining, hleave, append_assoc]
        rfl

omit [JsonNumber N] in
/-- A message without its results, if anything is left of it. -/
def stripped (m : ClaudeMessage N × ℕ) : Option (ClaudeMessage N × ℕ) :=
  if m.1.role ≠ .user then some m
  else if remaining m.1.content = [] then none
  else some ({ m.1 with content := remaining m.1.content }, m.2)

/-- The results that a list of messages carries for the user. -/
def carried (l : List (ClaudeMessage N × ℕ)) : List (Block N) :=
  l.flatMap fun m => if m.1.role = .user then m.1.results else []

theorem foldl_strip {l : List (ClaudeMessage N × ℕ)}
    (hknown : ∀ r ∈ carried l, resultId r ≠ "" ∧ (index.get (resultId r)).isSome = true)
    {s : Stripping N} (h : Holds index collected s.resultsByAssistant)
    (hdistinct : ((collected ++ carried l).map resultId).Nodup) :
    ∃ s', l.foldl (stripAndCollectToolResults index) s = s' ∧
      s'.strippedMessages = s.strippedMessages ++ l.filterMap stripped ∧
      Holds index (collected ++ carried l) s'.resultsByAssistant := by
  induction l generalizing collected s with
  | nil =>
    refine ⟨s, rfl, (append_nil _).symm, ?_⟩
    rw [carried, flatMap_nil, append_nil]
    exact h
  | cons m l ih =>
    rw [foldl_cons, stripAndCollectToolResults]
    by_cases hrole : m.1.role = .user
    · have hcons : carried (m :: l) = m.1.results ++ carried l := by
        rw [carried, flatMap_cons, if_pos hrole]
        rfl
      rw [hcons] at hknown hdistinct ⊢
      rw [← append_assoc] at hdistinct ⊢
      have hfirst : ((collected ++ m.1.results).map resultId).Nodup := by
        rw [map_append] at hdistinct
        exact (nodup_append.1 hdistinct).1
      obtain ⟨c, hc, hremaining, hholds⟩ := foldl_collectBlock
        (s := ⟨s.resultsByAssistant, []⟩) (fun r hr => hknown r (mem_append_left _ hr)) h hfirst
      rw [if_neg (not_not.2 hrole), hc]
      obtain ⟨s', hs', hmessages, hholds'⟩ := ih
        (fun r hr => hknown r (mem_append_right _ hr))
        (s :=
          { resultsByAssistant := c.resultsByAssistant
            strippedMessages := s.strippedMessages ++ if c.remainingBlocks = [] then []
              else [({ m.1 with content := c.remainingBlocks }, m.2)] }) hholds hdistinct
      refine ⟨s', hs', ?_, hholds'⟩
      rw [hmessages, append_assoc, hremaining, nil_append]
      congr 1
      by_cases hnil : remaining m.1.content = []
      · have hstripped : stripped m = none := by
          rw [stripped, if_neg (not_not.2 hrole), if_pos hnil]
        rw [if_pos hnil, filterMap_cons_none hstripped]
        rfl
      · have hstripped : stripped m = some ({ m.1 with content := remaining m.1.content }, m.2) := by
          rw [stripped, if_neg (not_not.2 hrole), if_neg hnil]
        rw [if_neg hnil, filterMap_cons_some hstripped]
        rfl
    · have hcons : carried (m :: l) = carried l := by
        rw [carried, flatMap_cons, if_neg hrole]
        rfl
      rw [hcons] at hknown hdistinct ⊢
      rw [if_pos hrole]
      obtain ⟨s', hs', hmessages, hholds⟩ := ih hknown
        (s := { s with strippedMessages := s.strippedMessages ++ [m] }) h hdistinct
      refine ⟨s', hs', ?_, hholds⟩
      have hstripped : stripped m = some m := if_pos hrole
      rw [hmessages, append_assoc, filterMap_cons_some hstripped]
      rfl

/-! ## The pass on matched messages -/

omit [JsonNumber N] in
theorem carried_eq (h : ∀ m ∈ ms, Sided m) : carried ms.zipIdx = results ms := by
  have hone : ∀ p ∈ ms.zipIdx, (if p.1.role = .user then p.1.results else []) = p.1.results := by
    intro p hp
    rcases h p.1 (mem_of_mem_zipIdx hp) with ⟨hrole, -⟩ | ⟨hrole, hresults⟩
    · exact if_pos hrole
    · rw [hresults, ite_self]
  rw [carried, flatMap_congr hone]
  exact flatMap_zipIdx ClaudeMessage.results ms

omit [JsonNumber N] in
/-- A message of the assistant is not stripped. -/
theorem mem_of_stripped {l : List (ClaudeMessage N × ℕ)} {m : ClaudeMessage N × ℕ}
    (hm : m ∈ l.filterMap stripped) (hrole : m.1.role = .assistant) : m ∈ l := by
  obtain ⟨m', hm', hstripped⟩ := mem_filterMap.1 hm
  unfold stripped at hstripped
  split at hstripped
  · exact some.inj hstripped ▸ hm'
  · next huser =>
    split at hstripped
    · cases hstripped
    · rw [← some.inj hstripped] at hrole
      exact absurd (hrole.symm.trans (not_not.1 huser)) (by decide)

variable {ms : List (ClaudeMessage N)}

omit [JsonNumber N] in
/-- What is grouped under the position of a message are the results of its calls. -/
theorem orderedResults_eq (h : Matched ms) {resultsByAssistant : OrdMap ℕ (List (Block N))}
    (hholds : Holds (indexAssistantToolUses ms) (results ms) resultsByAssistant)
    {m : ClaudeMessage N × ℕ} (hm : m ∈ ms.zipIdx) (hrole : m.1.role = .assistant) :
    orderedResultsForAssistant resultsByAssistant m = answers (results ms) m.1 := by
  have hgroup : ∀ id ∈ m.1.content.filterMap useId,
      ((resultsByAssistant.get m.2).getD []).filter (fun r => decide (resultId r = id)) =
        (results ms).filter fun r => decide (resultId r = id) := by
    intro id hid
    have hnoted : (id, m.2) ∈ notedIds m := by
      rw [notedIds, if_pos hrole]
      exact mem_map_of_mem hid
    have hget := get_index_of_mem ((notedIds_eq h.sided) ▸ h.distinct) hm hnoted
    rw [hholds, List.filter_filter]
    refine filter_congr fun r _ => ?_
    by_cases hr : resultId r = id
    · simp [hr, hget]
    · simp [hr]
  unfold orderedResultsForAssistant answers
  rw [if_neg (not_not.2 hrole), filterMap_eq_flatMap_toList, flatMap_assoc]
  refine flatMap_congr fun b hb => ?_
  cases hid : useId b with
  | none => rfl
  | some id =>
    dsimp only [toList_some]
    rw [flatMap_singleton, hgroup id (mem_filterMap.2 ⟨b, hb, hid⟩)]

/-- The pass puts the answers of every message behind it. -/
theorem enforce_eq (h : Matched ms) :
    enforceToolResultAdjacency ms =
      (ms.zipIdx.filterMap stripped).flatMap fun m =>
        m.1 :: if m.1.role = .assistant ∧ answers (results ms) m.1 ≠ [] then
          [⟨.user, answers (results ms) m.1⟩] else [] := by
  have hcarried := carried_eq h.sided
  have hknown : ∀ r ∈ carried ms.zipIdx, resultId r ≠ "" ∧
      ((indexAssistantToolUses ms).get (resultId r)).isSome = true := by
    intro r hr
    rw [hcarried] at hr
    exact h.known (h.answered.mem_iff.1 (mem_map_of_mem hr))
  have hnodup : ((([] : List (Block N)) ++ carried ms.zipIdx).map resultId).Nodup := by
    rw [nil_append, hcarried]
    exact h.answered.nodup_iff.2 h.distinct
  have hempty : Holds (indexAssistantToolUses ms) ([] : List (Block N)) empty := fun _ => rfl
  obtain ⟨s, hs, hmessages, hholds⟩ := foldl_strip hknown (s := {}) hempty hnodup
  unfold enforceToolResultAdjacency insertAdjacentToolResults
  dsimp only
  rw [hs, hmessages]
  rw [nil_append, hcarried] at hholds
  refine flatMap_congr fun m hm => ?_
  by_cases hrole : m.1.role = .assistant
  · rw [orderedResults_eq h hholds (mem_of_stripped hm hrole) hrole]
    simp only [hrole, true_and, ite_not]
  · rw [orderedResultsForAssistant, if_pos hrole, if_pos rfl, if_neg fun hc => hrole hc.1]

/-! ## What the pass says -/

/-- The calls of a message with their answers. -/
def exchange (all : List (Block N)) (m : ClaudeMessage N) :
    Option (List (Block N) × Option (List (Block N))) :=
  if m.role = .assistant ∧ m.uses ≠ [] then some (m.uses, some (answers all m)) else none

omit [JsonNumber N] in
theorem exchanges_insert {all : List (Block N)} {l : List (ClaudeMessage N)}
    (hanswers : ∀ m ∈ l, m.role = .assistant → m.uses ≠ [] → answers all m ≠ []) :
    exchanges (l.flatMap fun m => m :: if m.role = .assistant ∧ answers all m ≠ [] then
      [⟨.user, answers all m⟩] else []) = l.filterMap (exchange all) := by
  induction l with
  | nil => rfl
  | cons m l ih =>
    have hrest := ih fun m' hm' => hanswers m' (mem_cons_of_mem _ hm')
    rw [flatMap_cons, cons_append]
    by_cases hm : m.role = .assistant ∧ m.uses ≠ []
    · have hne := hanswers m mem_cons_self hm.1 hm.2
      have hexchange : exchange all m = some (m.uses, some (answers all m)) := if_pos hm
      rw [if_pos ⟨hm.1, hne⟩, exchanges, if_pos hm, filterMap_cons_some hexchange,
        singleton_append, exchanges_cons_of_not (by simp), hrest]
      rfl
    · have hexchange : exchange all m = none := if_neg hm
      rw [exchanges_cons_of_not hm, filterMap_cons_none hexchange, ← hrest]
      split
      · rw [singleton_append, exchanges_cons_of_not (by simp)]
      · rfl

/-- **Every message with calls is followed by their results.** -/
theorem exchanges_enforce (h : Matched ms) :
    exchanges (enforceToolResultAdjacency ms) = ms.filterMap (exchange (results ms)) := by
  have hmem : ∀ m ∈ (ms.zipIdx.filterMap stripped).map Prod.fst, m.role = .assistant → m ∈ ms := by
    intro m hm hrole
    obtain ⟨p, hp, rfl⟩ := mem_map.1 hm
    exact mem_of_mem_zipIdx (mem_of_stripped hp hrole)
  have hflat := exchanges_insert fun m hm hrole huses =>
    h.answers_ne_nil (hmem m hm hrole) huses
  rw [flatMap_map] at hflat
  rw [enforce_eq h]
  refine hflat.trans ?_
  have hsame : ∀ p ∈ ms.zipIdx, ((stripped p).map Prod.fst).bind (exchange (results ms)) =
      exchange (results ms) p.1 := by
    intro p _
    unfold stripped
    split
    · rfl
    · next huser =>
      have hnot : ¬(p.1.role = .assistant ∧ p.1.uses ≠ []) := fun hc =>
        absurd (hc.1.symm.trans (not_not.1 huser)) (by decide)
      have hright : exchange (results ms) p.1 = none := if_neg hnot
      rw [hright]
      split
      · rfl
      · refine if_neg fun hc => ?_
        exact absurd (hc.1.symm.trans (not_not.1 huser)) (by decide)
  rw [← filterMap_eq_map, filterMap_filterMap, filterMap_filterMap,
    ← filterMap_zipIdx (exchange (results ms)) ms]
  refine filterMap_congr fun p hp => ?_
  rw [← hsame p hp]
  cases stripped p <;> rfl

omit [JsonNumber N] in
theorem texts_remaining (bs : List (Block N)) :
    (remaining bs).filterMap blockText = bs.filterMap blockText := by
  induction bs with
  | nil => rfl
  | cons b bs ih =>
    unfold remaining at ih ⊢
    by_cases hb : b.isToolResult = true
    · rw [filter_cons_of_neg (by simp [hb]), ih, filterMap_cons_none (blockText_of_result hb)]
    · rw [filter_cons_of_pos (by simp [hb]), filterMap_cons, filterMap_cons, ih]

/-- **No text changes.** -/
theorem texts_enforce (h : Matched ms) : texts (enforceToolResultAdjacency ms) = texts ms := by
  have hanswers : ∀ m, (answers (results ms) m).filterMap blockText = [] := by
    intro m
    refine filterMap_eq_nil_iff.2 fun r hr => blockText_of_result ?_
    obtain ⟨id, -, hr⟩ := mem_flatMap.1 hr
    obtain ⟨m', -, hr⟩ := mem_flatMap.1 (mem_of_mem_filter hr)
    exact (mem_filter.1 hr).2
  have hinserted : ∀ m : ClaudeMessage N, ((m :: if m.role = .assistant ∧
      answers (results ms) m ≠ [] then [⟨.user, answers (results ms) m⟩] else []).flatMap
        ClaudeMessage.texts) = m.texts := by
    intro m
    rw [flatMap_cons]
    split
    · rw [flatMap_singleton, ClaudeMessage.texts, ClaudeMessage.texts, hanswers, map_nil,
        append_nil]
    · rw [flatMap_nil, append_nil]
  rw [enforce_eq h, texts, texts, flatMap_assoc, ← flatMap_zipIdx ClaudeMessage.texts ms,
    filterMap_eq_flatMap_toList, flatMap_assoc]
  refine flatMap_congr fun p _ => ?_
  have htexts : (⟨p.1.role, remaining p.1.content⟩ : ClaudeMessage N).texts = p.1.texts := by
    rw [ClaudeMessage.texts, ClaudeMessage.texts, texts_remaining]
  unfold stripped
  split
  · rw [toList_some, flatMap_singleton]
    exact hinserted p.1
  · split
    · next hnil =>
      rw [hnil] at htexts
      rw [toList_none, flatMap_nil, ← htexts]
      rfl
    · rw [toList_some, flatMap_singleton]
      exact (hinserted _).trans htexts

/-! ## The calls, in any case -/

theorem groups_strip (index : OrdMap String ℕ) (l : List (ClaudeMessage N × ℕ)) (s : Stripping N) :
    ((l.foldl (stripAndCollectToolResults index) s).strippedMessages.filterMap fun p =>
        group p.1) =
      (s.strippedMessages.filterMap fun p => group p.1) ++ l.filterMap fun p => group p.1 := by
  induction l generalizing s with
  | nil => exact (append_nil _).symm
  | cons p l ih =>
    rw [foldl_cons, ih, stripAndCollectToolResults, filterMap_cons_toList]
    by_cases hrole : p.1.role = .user
    · rw [if_neg (not_not.2 hrole), filterMap_append, group_user hrole, append_assoc]
      congr 1
      split
      · rfl
      · have huser : ∀ content, group (⟨p.1.role, content⟩ : ClaudeMessage N) = none :=
          fun content => group_user hrole
        rw [filterMap_cons_toList]
        dsimp only
        rw [huser]
        rfl
    · rw [if_pos hrole, filterMap_append, filterMap_cons_toList, filterMap_nil,
        append_nil, append_assoc]

/-- The pass leaves every message with calls as it is. -/
theorem groups_enforce (ms : List (ClaudeMessage N)) :
    (enforceToolResultAdjacency ms).filterMap group = ms.filterMap group := by
  unfold enforceToolResultAdjacency
  rw [groups_insert, groups_strip]
  exact filterMap_zipIdx group ms

end Collect

end OmniRoute.ClaudeRequest
