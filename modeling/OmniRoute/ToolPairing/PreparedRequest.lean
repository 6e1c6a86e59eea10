import OmniRoute.ToolPairing.ApiValid

/-!
# What becomes of a request

The passes of `prepareClaudeRequest` one after the other, from the messages of the client to the
messages that are sent.
-/

namespace OmniRoute.ToolPairing

namespace PrepareClaude

open List Lookahead Block

variable {N : Type}

/-! ## Cleaning -/

/-- A message after the passes that look at it alone. -/
def cleaned (preserveCacheControl : Bool) (msg : Message N) : Message N :=
  cleanMessage (removeCacheControl preserveCacheControl msg)

variable (preserve : Bool) (m : Message N)

theorem role_cleaned : (cleaned preserve m).role = m.role := by
  rw [cleaned, removeCacheControl]
  split <;> rfl

/-- A block without its cache mark, if the marks go. -/
def unmarked (preserve : Bool) (b : Block N) : Block N :=
  if preserve then b else mapFields (deleteField "cache_control") b

theorem sameBlock_unmarked (b : Block N) : SameBlock b (unmarked preserve b) := by
  rw [unmarked]
  split
  · exact .refl b
  · refine sameBlock_mapFields (fun fields key hkey => lookup_deleteField ?_ fields) b
    rintro rfl
    simp at hkey

theorem content_removeCacheControl :
    (removeCacheControl preserve m).content =
      Content.onBlocks (List.map (unmarked preserve)) m.content := by
  obtain ⟨role, content, toolCalls, toolCallId, fields⟩ := m
  cases preserve with
  | false => rfl
  | true =>
    have hid : (unmarked true : Block N → Block N) = id := funext fun b => rfl
    rw [hid]
    cases content with
    | absent => rfl
    | text text => rfl
    | blocks bs => exact congrArg Content.blocks (map_id bs).symm

/-- The blocks of a cleaned message. -/
def cleanBlocks (preserve : Bool) (bs : List (Block N)) : List (Block N) :=
  (((bs.map (unmarked preserve)).filter isNamed).filter isAddressed).map sanitizeBlock

theorem content_cleaned :
    (cleaned preserve m).content = Content.onBlocks (cleanBlocks preserve) m.content := by
  rw [cleaned, cleanMessage, onBlocks, content_removeCacheControl]
  cases m.content <;> rfl

theorem blockList_onBlocks_content (f : List (Block N) → List (Block N)) (content : Content N)
    (h : f [] = []) : (Content.onBlocks f content).blockList = f content.blockList := by
  cases content with
  | absent => exact h.symm
  | text text => exact h.symm
  | blocks bs => rfl

theorem blockList_cleaned :
    (cleaned preserve m).content.blockList = cleanBlocks preserve m.content.blockList := by
  rw [content_cleaned, blockList_onBlocks_content _ _ rfl]

theorem sanitizeId_some (id : String) : sanitizeId (some id) = some (sanitizeToolId id) := by
  by_cases hid : id = ""
  · subst hid
    rfl
  · rw [sanitizeId, truthyId_eq_some.2 ⟨rfl, hid⟩]

theorem sanitizeToolId_ne {id : String} (h : id ≠ "") : sanitizeToolId id ≠ "" := by
  intro heq
  have hnil : id.toList.flatMap sanitizeChar = [] := by
    have hlist := congrArg String.toList heq
    rwa [sanitizeToolId, String.toList_ofList] at hlist
  refine h (String.toList_inj.1 ?_)
  cases hid : id.toList with
  | nil => rfl
  | cons c l =>
    rw [hid, flatMap_cons] at hnil
    have hchar := (append_eq_nil_iff.1 hnil).1
    rw [sanitizeChar] at hchar
    split_ifs at hchar

variable {fields : List (String × Json N)}

/-- A result with an id goes through the cleaning. -/
theorem result_cleaned {m : Message N} {id : String} (hid : id ≠ "")
    (h : toolResult (some id) fields ∈ m.content.blockList) :
    ∃ fields', toolResult (some (sanitizeToolId id)) fields' ∈
      (cleaned preserve m).content.blockList ∧ fields'.lookup "content" = fields.lookup "content" := by
  obtain ⟨fields', hb, hcontent⟩ := (sameBlock_unmarked preserve _).content (some id) fields rfl
  refine ⟨fields', ?_, hcontent⟩
  rw [blockList_cleaned, cleanBlocks, ← sanitizeId_some]
  have haddressed : isAddressed (.toolResult (some id) fields' : Block N) = true := by
    rw [isAddressed, truthyId_eq_some.2 ⟨rfl, hid⟩]
    rfl
  refine mem_map.2 ⟨.toolResult (some id) fields', ?_, rfl⟩
  refine mem_filter.2 ⟨mem_filter.2 ⟨?_, rfl⟩, haddressed⟩
  rw [← hb]
  exact mem_map_of_mem h

/-- So does a call with a name. -/
theorem use_cleaned {m : Message N} {id : String} (hname : isFilled (fields.lookup "name") = true)
    (h : toolUse (some id) fields ∈ m.content.blockList) :
    sanitizeToolId id ∈ useIds (cleaned preserve m).content.blockList := by
  obtain ⟨fields', hb, hname'⟩ : ∃ fields', unmarked preserve (.toolUse (some id) fields) =
      (.toolUse (some id) fields' : Block N) ∧ isFilled (fields'.lookup "name") = true := by
    rw [unmarked]
    split
    · exact ⟨fields, rfl, hname⟩
    · exact ⟨_, rfl, by rw [lookup_deleteField (by decide), hname]⟩
  rw [blockList_cleaned, cleanBlocks, useIds, mem_filterMap]
  refine ⟨.toolUse (sanitizeId (some id)) fields', mem_map.2
    ⟨.toolUse (some id) fields', ?_, rfl⟩, sanitizeId_some id⟩
  refine mem_filter.2 ⟨mem_filter.2 ⟨?_, hname'⟩, rfl⟩
  rw [← hb]
  exact mem_map_of_mem h

/-! ## The filter -/

/-- The messages before the results are moved. -/
def filtered (preserve : Bool) (msgs : List (Message N)) : List (Message N) :=
  (filterMessages preserve msgs).map cleanMessage

theorem pass_filterStep_sublist (l : List (Message N)) (z : Option (Message N)) :
    (Lookahead.pass filterStep l z).Sublist l := by
  induction l with
  | nil => exact Sublist.refl _
  | cons m l ih =>
    rw [pass_cons, filterStep]
    split
    · exact ih.cons_cons m
    · exact ih.cons m

theorem filtered_sublist (msgs : List (Message N)) :
    (filtered preserve msgs).Sublist (msgs.map (cleaned preserve)) := by
  have hmap := (pass_filterStep_sublist (msgs.map (removeCacheControl preserve)) none).map cleanMessage
  rwa [map_map] at hmap

theorem hasValidContent_of_block {m : Message N} {b : Block N}
    (hb : b ∈ m.content.blockList) (h : b.isToolUse = true ∨ b.isToolResult = true) :
    hasValidContent (removeCacheControl preserve m) = true := by
  have hsame := sameBlock_unmarked preserve b
  have hvalid : hasValidBlock (unmarked preserve b) = true := by
    rw [← hsame.isToolUse, ← hsame.isToolResult] at h
    cases hc : unmarked preserve b with
    | toolUse id fields => rfl
    | toolResult id fields => rfl
    | other block =>
      rw [hc] at h
      rcases h with h | h <;> cases h
  rw [hasValidContent, content_removeCacheControl]
  obtain ⟨role, content, toolCalls, toolCallId, fields⟩ := m
  cases content with
  | absent => cases hb
  | text text => cases hb
  | blocks bs => exact any_eq_true.2 ⟨_, mem_map_of_mem hb, hvalid⟩

theorem filtered_split {pre post : List (Message N)} {m : Message N}
    (hm : hasValidContent (removeCacheControl preserve m) = true) :
    ∃ l₁ l₂, filtered preserve (pre ++ m :: post) = l₁ ++ cleaned preserve m :: l₂ ∧
      ∀ a ∈ pre, hasValidContent (removeCacheControl preserve a) = true →
        cleaned preserve a ∈ l₁ := by
  have hkeep : ∀ (a : Message N) (z : Option (Message N)), hasValidContent a = true →
      filterStep a z = [a] := fun a z ha => if_pos (by rw [ha, Bool.or_true])
  rw [filtered, filterMessages, map_append, map_cons, pass_append,
    pass_cons, hkeep _ _ hm, map_append, map_append]
  refine ⟨_, _, rfl, fun a ha hvalid => ?_⟩
  obtain ⟨before, after, rfl⟩ := append_of_mem ha
  rw [map_append, map_cons, pass_append, pass_cons, hkeep _ _ hvalid, map_append, map_append]
  exact mem_append_right _ (mem_append_left _ mem_cons_self)

/-! ## Order -/

theorem keepOrdered_sublist (found : Bool) (bs : List (Block N)) :
    (keepOrdered found bs).Sublist bs := by
  induction bs generalizing found with
  | nil => exact Sublist.refl _
  | cons b bs ih =>
    rw [keepOrdered]
    split_ifs
    · exact (ih true).cons_cons b
    · exact (ih found).cons_cons b
    · exact (ih found).cons b

theorem isText_keepOrdered (bs : List (Block N)) : ∀ b ∈ keepOrdered true bs, isText b = false := by
  induction bs with
  | nil => exact fun b hb => (by cases hb)
  | cons c bs ih =>
    intro b hb
    rw [keepOrdered] at hb
    split_ifs at hb with huse hthinking
    · rcases mem_cons.1 hb with rfl | hb
      · cases b with
        | toolUse id fields => rfl
        | toolResult id fields => rfl
        | other block => cases huse
      · exact ih b hb
    · rcases mem_cons.1 hb with rfl | hb
      · rw [Bool.not_true, Bool.or_false] at hthinking
        exact (not_text_of_isThinking hthinking).1
      · exact ih b hb
    · exact ih b hb

theorem ordered_keepOrdered (found : Bool) (bs : List (Block N)) :
    Ordered (keepOrdered found bs) := by
  induction bs generalizing found with
  | nil => exact List.Pairwise.nil
  | cons b bs ih =>
    rw [keepOrdered]
    split_ifs with huse
    · exact .cons (fun c hc _ => isText_keepOrdered bs c hc) (ih true)
    · exact .cons (fun c _ hb => absurd hb huse) (ih found)
    · exact ih found

/-! ## The parts of an assistant message -/

variable {bs bs' : List (Block N)}

theorem map_sameBlocks {β : Type} {f : Block N → β}
    (h : List.Forall₂ SameBlock bs bs') (hf : ∀ b b', SameBlock b b' → f b' = f b) :
    bs'.map f = bs.map f := by
  induction h with
  | nil => rfl
  | cons hb _ ih => rw [map_cons, map_cons, hf _ _ hb, ih]

theorem filterMap_sameBlocks {β : Type} {f : Block N → Option β}
    (h : List.Forall₂ SameBlock bs bs') (hf : ∀ b b', SameBlock b b' → f b' = f b) :
    bs'.filterMap f = bs.filterMap f := by
  induction h with
  | nil => rfl
  | cons hb _ ih => rw [filterMap_cons, filterMap_cons, hf _ _ hb, ih]

theorem sameBlocks_unmarked (bs : List (Block N)) :
    List.Forall₂ SameBlock bs (bs.map (unmarked preserve)) := by
  induction bs with
  | nil => exact .nil
  | cons b bs ih => exact .cons (sameBlock_unmarked preserve b) ih

theorem calledId_sanitizeBlock (b : Block N) :
    (sanitizeBlock b).calledId = b.calledId.map sanitizeToolId := by
  cases b with
  | toolResult id fields => rfl
  | other block => rfl
  | toolUse id fields =>
    cases id with
    | none => rfl
    | some id =>
      rw [sanitizeBlock, sanitizeId_some, calledId, calledId]
      by_cases hid : id = ""
      · subst hid
        rfl
      · rw [truthyId_eq_some.2 ⟨rfl, hid⟩, truthyId_eq_some.2 ⟨rfl, sanitizeToolId_ne hid⟩]
        rfl

/-- Cleaning and ordering take blocks out, and change ids. -/
theorem sublist_part (bs : List (Block N)) :
    ((keepOrdered false ((cleanBlocks preserve bs).filter isOther)).filterMap blockText).Sublist
        (bs.filterMap blockText) ∧
      ((keepOrdered false ((cleanBlocks preserve bs).filter isOther)).filterMap
        calledId).Sublist ((bs.filterMap calledId).map sanitizeToolId) := by
  have hpart : (keepOrdered false ((cleanBlocks preserve bs).filter isOther)).Sublist
      ((bs.map (unmarked preserve)).map sanitizeBlock) := by
    refine (keepOrdered_sublist false _).trans (filter_sublist.trans ?_)
    exact (filter_sublist.trans filter_sublist).map sanitizeBlock
  have hsame := sameBlocks_unmarked preserve bs
  have htexts : ((bs.map (unmarked preserve)).map sanitizeBlock).filterMap blockText =
      bs.filterMap blockText := by
    rw [filterMap_map, ← filterMap_sameBlocks hsame fun _ _ h => h.blockText]
    refine filterMap_congr fun b _ => ?_
    cases b <;> rfl
  have hcalls : ((bs.map (unmarked preserve)).map sanitizeBlock).filterMap calledId =
      (bs.filterMap calledId).map sanitizeToolId := by
    rw [filterMap_map, ← filterMap_sameBlocks hsame fun _ _ h => h.calledId, map_filterMap]
    exact filterMap_congr fun b _ => calledId_sanitizeBlock b
  have htext := hpart.filterMap blockText
  have hcall := hpart.filterMap calledId
  rw [htexts] at htext
  rw [hcalls] at hcall
  exact ⟨htext, hcall⟩

/-- What an assistant message contributes to the merged messages. -/
theorem comesFrom_part {s x : Message N} (hrole : s.role = .assistant)
    (h : withoutResults (cleaned preserve s) = some x) :
    ComesFrom s (toArray (orderUses x)).content.blockList ∧
      Ordered (toArray (orderUses x)).content.blockList := by
  have hx : x = onBlocks (filter isOther) (cleaned preserve s) := by
    rw [withoutResults] at h
    split at h
    · cases h
    · exact (Option.some.inj h).symm
  have hxrole : x.role = .assistant := by
    rw [hx]
    exact (role_cleaned preserve s).trans hrole
  have hcontent : (orderUses x).content = Content.onBlocks (fun bs =>
      keepOrdered false ((cleanBlocks preserve bs).filter isOther)) s.content := by
    rw [orderUses, if_pos hxrole, hx, onBlocks, onBlocks, content_cleaned]
    cases s.content <;> rfl
  have hsingle : ∀ b : Block N, Ordered [b] := fun b => pairwise_singleton _ b
  rw [toArray, hcontent]
  cases hs : s.content with
  | absent => exact ⟨⟨by rw [hs]; exact Sublist.refl _, nil_sublist _⟩, hsingle _⟩
  | text text => exact ⟨⟨by rw [hs]; exact Sublist.refl _, nil_sublist _⟩, hsingle _⟩
  | blocks bs =>
    obtain ⟨htexts, hcalls⟩ := sublist_part preserve bs
    exact ⟨⟨by rw [hs]; exact htexts, by rw [hs]; exact hcalls⟩, ordered_keepOrdered false _⟩

/-- The sources of some elements of a filtered list. -/
theorem exists_of_sublist_filterMap {α β : Type} {f : α → Option β} {xs : List β} {l : List α}
    (h : xs.Sublist (l.filterMap f)) :
    ∃ ys, ys.Sublist l ∧ List.Forall₂ (fun y x => f y = some x) ys xs := by
  induction l generalizing xs with
  | nil =>
    obtain rfl := sublist_nil.1 h
    exact ⟨[], Sublist.refl _, .nil⟩
  | cons a l ih =>
    cases ha : f a with
    | none =>
      rw [filterMap_cons_none ha] at h
      obtain ⟨ys, hys, hall⟩ := ih h
      exact ⟨ys, hys.cons a, hall⟩
    | some b =>
      rw [filterMap_cons_some ha] at h
      cases h with
      | cons _ h =>
        obtain ⟨ys, hys, hall⟩ := ih h
        exact ⟨ys, hys.cons a, hall⟩
      | cons_cons _ h =>
        obtain ⟨ys, hys, hall⟩ := ih h
        exact ⟨a :: ys, hys.cons_cons a, .cons ha hall⟩

/-- The assistant messages after the results were moved, with the messages they come from. -/
theorem assistants_filtered {preserve : Bool} {msgs xs : List (Message N)}
    (hxs : xs.Sublist (splitMisplacedToolResults (filtered preserve msgs)))
    (hrole : ∀ x ∈ xs, x.role = .assistant) :
    ∃ run, run.Sublist msgs ∧ List.Forall₂ (fun s x => s.role = .assistant ∧
      withoutResults (cleaned preserve s) = some x) run xs := by
  have hfilter := hxs.filter fun m => decide (m.role = .assistant)
  rw [filter_eq_self.2 fun x hx => decide_eq_true (hrole x hx), assistants_split] at hfilter
  have hall : ((filtered preserve msgs).filter fun m => decide (m.role = .assistant)).filterMap
      withoutResults = (filtered preserve msgs).filterMap fun m =>
        if m.role = .assistant then withoutResults m else none := by
    rw [filterMap_filter]
    refine filterMap_congr fun m _ => ?_
    by_cases hm : m.role = .assistant
    · rw [if_pos hm, if_pos (decide_eq_true hm)]
    · rw [if_neg hm, if_neg (by simp [hm])]
  rw [hall] at hfilter
  have hmsgs := hfilter.trans ((filtered_sublist preserve msgs).filterMap _)
  rw [filterMap_map] at hmsgs
  obtain ⟨run, hrun, hsources⟩ := exists_of_sublist_filterMap hmsgs
  refine ⟨run, hrun, hsources.imp fun s x h => ?_⟩
  simp only [Function.comp_apply, role_cleaned] at h
  split at h
  · next hs => exact ⟨hs, h⟩
  · cases h

/-! ## The merged messages -/

theorem isToolResult_withoutResults {m x : Message N} (h : withoutResults m = some x) :
    ∀ b ∈ x.content.blockList, b.isToolResult = false := by
  intro b hb
  rw [withoutResults] at h
  split at h
  · cases h
  · cases h
    rw [onBlocks, blockList_onBlocks_content _ _ rfl] at hb
    have hother := (mem_filter.1 hb).2
    cases b with
    | toolResult id fields => cases hother
    | _ => rfl

variable {l : List (Message N)}

theorem isToolResult_split {x : Message N}
    (hx : x ∈ splitMisplacedToolResults l) (hrole : x.role = .assistant) :
    ∀ b ∈ x.content.blockList, b.isToolResult = false := by
  have hmem : x ∈ (splitMisplacedToolResults l).filter fun m => decide (m.role = .assistant) :=
    mem_filter.2 ⟨hx, decide_eq_true hrole⟩
  rw [assistants_split] at hmem
  obtain ⟨m, -, hm⟩ := mem_filterMap.1 hmem
  exact isToolResult_withoutResults hm

theorem role_orderUses : (orderUses m).role = m.role := by
  rw [orderUses]
  split <;> rfl

theorem isToolResult_toArray {x : Message N}
    (hx : x ∈ splitMisplacedToolResults l) (hrole : x.role = .assistant) :
    ∀ b ∈ (toArray (orderUses x)).content.blockList, b.isToolResult = false := by
  intro b hb
  have hnone := isToolResult_split hx hrole
  rw [orderUses, if_pos hrole] at hb
  obtain ⟨role, content, toolCalls, toolCallId, fields⟩ := x
  cases content with
  | absent =>
    obtain rfl := mem_singleton.1 hb
    rfl
  | text text =>
    obtain rfl := mem_singleton.1 hb
    rfl
  | blocks bs => exact hnone b ((keepOrdered_sublist false bs).subset hb)

/-- The merged message of a run of assistant messages is their parts, one after the other. -/
theorem merged_assistant {l run : List (Message N)} {m : Message N} (hrun : MergedRun run m)
    (hrole : m.role = .assistant)
    (hsub : run.Sublist ((splitMisplacedToolResults l).map fun x => toArray (orderUses x))) :
    ∃ xs, xs.Sublist (splitMisplacedToolResults l) ∧ (∀ x ∈ xs, x.role = .assistant) ∧
      xs ≠ [] ∧
        m.content.blockList = (xs.map fun x => (toArray (orderUses x)).content.blockList).flatten ∧
      ∀ b ∈ m.content.blockList, b.isToolResult = false := by
  obtain ⟨xs, hxs, rfl⟩ := sublist_map_iff.1 hsub
  have hroles : ∀ x ∈ xs, x.role = .assistant := by
    intro x hx
    have hsame := hrun.roles _ (mem_map_of_mem hx)
    rw [← role_orderUses x]
    exact hsame.trans hrole
  have hnone : ∀ b ∈ (xs.map fun x => toArray (orderUses x)).flatMap fun s => s.content.blockList,
      b.isToolResult = false := by
    intro b hb
    obtain ⟨s, hs, hb⟩ := mem_flatMap.1 hb
    obtain ⟨x, hx, rfl⟩ := mem_map.1 hs
    exact isToolResult_toArray (hxs.subset hx) (hroles x hx) b hb
  have hother : ∀ k : List (Block N), (∀ b ∈ k, b.isToolResult = false) → k.filter isOther = k := by
    intro k hk
    refine filter_eq_self.2 fun b hb => ?_
    rw [isOther, hk b hb]
    rfl
  have hresults : ∀ b ∈ m.content.blockList, b.isToolResult = false := by
    intro b hb
    by_contra hb'
    have hmem : b ∈ m.content.blockList.filter isToolResult :=
      mem_filter.2 ⟨hb, Bool.not_eq_false _ ▸ hb'⟩
    rw [hrun.results] at hmem
    obtain ⟨hmem, hb''⟩ := mem_filter.1 hmem
    rw [hnone b hmem] at hb''
    cases hb''
  refine ⟨xs, hxs, hroles, fun hnil => hrun.ne_nil (by rw [hnil]; rfl), ?_, hresults⟩
  rw [← hother _ hresults, hrun.others, hother _ hnone, flatMap_map, flatMap_def]

theorem mem_run {m : Message N} (hm : m ∈ mergeMessages l) :
    ∃ run, MergedRun run m ∧ run.Sublist (l.map toArray) := by
  obtain ⟨runs, hflatten, hall⟩ := merge_spec l
  obtain ⟨i, hi, rfl⟩ := getElem_of_mem hm
  have hi' : i < runs.length := by
    rw [hall.length_eq]
    exact hi
  refine ⟨runs[i], hall.get hi' hi, ?_⟩
  rw [← hflatten]
  exact sublist_flatten_of_mem (getElem_mem hi')

/-- The texts after the calls of an assistant message come from later messages. -/
theorem parts_of_assistant {preserve : Bool} {msgs : List (Message N)} {m : Message N}
    (hm : m ∈ mergeMessages ((splitMisplacedToolResults (filtered preserve msgs)).map orderUses))
    (hrole : m.role = .assistant) :
    ∃ (run : List (Message N)) (parts : List (List (Block N))), run.Sublist msgs ∧ run ≠ [] ∧
      (∀ s ∈ run, s.role = .assistant) ∧ m.content.blockList = parts.flatten ∧
      List.Forall₂ (fun s part => ComesFrom s part ∧ Ordered part) run parts := by
  obtain ⟨run, hrun, hsub⟩ := mem_run hm
  rw [map_map] at hsub
  obtain ⟨xs, hxs, hroles, hne, hblocks, -⟩ := merged_assistant hrun hrole hsub
  obtain ⟨sources, hsources, hall⟩ := assistants_filtered hxs hroles
  refine ⟨sources, _, hsources, ?_, ?_, hblocks, ?_⟩
  · rintro rfl
    cases hall
    exact hne rfl
  · clear hsources hblocks hxs hroles hne
    induction hall with
    | nil => exact fun s hs => (by cases hs)
    | cons h _ ih =>
      intro s hs
      rcases mem_cons.1 hs with rfl | hs
      · exact h.1
      · exact ih s hs
  · exact forall₂_map_right_iff.2 (hall.imp fun s x h => comesFrom_part preserve h.1 h.2)

/-- A result in a user message is there after merging. -/
theorem inUser_merged {b : Block N} (hb : b.isToolResult = true)
    (h : InUser b l) : InUser b (mergeMessages (l.map orderUses)) := by
  obtain ⟨u, hu, hrole, hmem⟩ := h
  obtain ⟨runs, hflatten, hall⟩ := merge_spec (l.map orderUses)
  have hsource : toArray u ∈ runs.flatten := by
    have hsame : orderUses u = u := if_neg (by rw [hrole]; decide)
    rw [hflatten, map_map]
    exact mem_map.2 ⟨u, hu, congrArg toArray hsame⟩
  obtain ⟨run, hrun, hsource⟩ := mem_flatten.1 hsource
  obtain ⟨i, hi, rfl⟩ := getElem_of_mem hrun
  have hi' : i < (mergeMessages (l.map orderUses)).length := by
    rw [← hall.length_eq]
    exact hi
  have hmerged : MergedRun runs[i] (mergeMessages (l.map orderUses))[i] := hall.get hi hi'
  refine ⟨_, getElem_mem hi', (hmerged.roles _ hsource).symm.trans hrole, ?_⟩
  have hblock : b ∈ (toArray u).content.blockList := by
    obtain ⟨role, content, toolCalls, toolCallId, fields⟩ := u
    cases content with
    | absent => cases hmem
    | text text => cases hmem
    | blocks bs => exact hmem
  have hfilter : b ∈ (runs[i].flatMap fun s => s.content.blockList).filter isToolResult :=
    mem_filter.2 ⟨mem_flatMap.2 ⟨_, hsource, hblock⟩, hb⟩
  rw [← hmerged.results] at hfilter
  exact (mem_filter.1 hfilter).1

/-! ## The reconciled messages -/

section Reconciled

theorem content_merged {m : Message N} (hm : m ∈ mergeMessages l) :
    m.content = .blocks m.content.blockList := by
  obtain ⟨run, hrun, -⟩ := mem_run hm
  exact hrun.content

theorem validIds_eq {a : Message N} (ha : a ∈ mergeMessages l) (hrole : a.role = .assistant) :
    validIds (some a) = (a.content.blockList.filterMap calledId).eraseDups := by
  have hcontent := content_merged ha
  obtain ⟨role, content, toolCalls, toolCallId, fields⟩ := a
  obtain rfl : role = .assistant := hrole
  cases content with
  | absent => cases hcontent
  | text text => cases hcontent
  | blocks bs => rfl

theorem blockText_textBlock (text : String) : blockText (textBlock text : Block N) = some text := by
  have htype : (Json.obj [("type", .str "text"), ("text", .str text)] : Json N).hasType "text" =
      true := rfl
  have htext : (Json.obj [("type", .str "text"), ("text", .str text)] : Json N).prop "text" =
      some (.str text) := rfl
  rw [textBlock, blockText, htype, htext]

variable [JsonNumber N]

theorem fixToolUseOrdering_cases (l : List (Message N)) :
    (l.length ≤ 1 ∧ (∀ m ∈ l, hasResult m = false) ∧ fixToolUseOrdering l = l) ∨
      fixToolUseOrdering l = reconcileFrom none (mergeMessages (l.map orderUses)) := by
  match l with
  | [] => exact .inr rfl
  | [m] =>
    by_cases hm : hasResult m = true
    · exact .inr (if_pos hm)
    · refine .inl ⟨le_refl _, fun x hx => ?_, if_neg hm⟩
      rw [mem_singleton.1 hx, Bool.eq_false_iff]
      exact hm
  | m :: m' :: l => exact .inr rfl

theorem content_reconcile {u : Message N} (hu : u ∈ mergeMessages l)
    (hrole : u.role = .user) (previous : Option (Message N)) :
    (reconcile previous u).content = .blocks
      (pairedResults (validIds previous) u.content.blockList ++
        otherContent (validIds previous) [] u.content.blockList) := by
  rw [reconcile, if_pos hrole, onBlocks, content_merged hu]
  rfl

theorem suffix_pair {a u : Message N} {rest : List (Message N)}
    (h : a :: u :: rest <:+ reconcileFrom none l) :
    ∃ prev m m' t, m :: m' :: t <:+ l ∧ a = reconcile prev m ∧ u = reconcile (some m) m' := by
  obtain ⟨prev, m, t, hm, ha, hrest⟩ := suffix_reconcileFrom h
  cases t with
  | nil => cases hrest
  | cons m' t =>
    rw [reconcileFrom] at hrest
    exact ⟨prev, m, m', t, hm, ha, (cons.inj hrest).1⟩

theorem infix_unpairedText (id : String) {s : String}
    (h : fields.lookup "content" = some (.str s)) :
    s.toList <:+: (unpairedText id fields).toList := by
  have hserialized : serialized fields = s := by
    simp only [serialized, h]
  have happend : (unpairedText id fields).toList =
      ("[Unpaired tool result " ++ (if id ≠ "" then id else "unknown") ++ "]\n").toList ++
        (serialized fields).toList := String.toList_append
  rw [happend, hserialized]
  exact (suffix_append _ _).isInfix

/-- The text of a result is in the message that it is reconciled in. -/
theorem carries_reconcile {u : Message N} (hu : u ∈ mergeMessages l)
    (hrole : u.role = .user) {id s : String}
    (hb : toolResult (some id) fields ∈ u.content.blockList)
    (hcontent : fields.lookup "content" = some (.str s)) (previous : Option (Message N)) :
    Carries s (reconcile previous u) := by
  have hblocks : (reconcile previous u).content.blockList =
      pairedResults (validIds previous) u.content.blockList ++
        otherContent (validIds previous) [] u.content.blockList := by
    rw [content_reconcile hu hrole]
    rfl
  have hkept := @mem_reconciled _ _ _ _ (validIds previous) [] _ hb
  rw [Carries, hblocks]
  generalize validIds previous = valid at hkept
  rcases hkept with ⟨hvalid, -, hfirst⟩ | htext
  · have hpaired : toolResult (some id) fields ∈
        pairedResults valid u.content.blockList :=
      mem_map.2 ⟨id, hvalid, by rw [hfirst, Option.getD_some]⟩
    exact ⟨_, mem_append_left _ hpaired, .inl ⟨some id, fields, rfl, hcontent⟩⟩
  · exact ⟨_, mem_append_right _ htext,
      .inr ⟨_, blockText_textBlock _, infix_unpairedText id hcontent⟩⟩

end Reconciled

/-! ## The messages that are sent -/

theorem exists_of_forall₂ {α β : Type} {R : α → β → Prop} {l : List α} {l' : List β}
    (h : List.Forall₂ R l l') {a : α} (ha : a ∈ l) : ∃ b ∈ l', R a b := by
  induction h with
  | nil => cases ha
  | cons hr _ ih =>
    rcases mem_cons.1 ha with rfl | ha
    · exact ⟨_, mem_cons_self, hr⟩
    · obtain ⟨b, hb, hab⟩ := ih ha
      exact ⟨b, .tail _ hb, hab⟩

theorem Carries.dressed {r o : Message N} {s : String} (h : Carries s r) (hd : Dressed r o)
    (hcontent : r.content = .blocks r.content.blockList) : Carries s o := by
  obtain ⟨front, bs, hblocks, hsame, -, -⟩ := hd.blocks
  have hensure : (ensureMessageContentArray r).content.blockList = r.content.blockList := by
    rw [ensureMessageContentArray, hcontent]
    exact congrArg Content.blockList hcontent
  obtain ⟨b, hb, hcarries⟩ := h
  rw [hensure] at hsame
  obtain ⟨b', hb', hbb'⟩ := exists_of_forall₂ hsame hb
  refine ⟨b', by rw [hblocks]; exact mem_append_right _ hb', ?_⟩
  rcases hcarries with ⟨id, fields, hresult, hlookup⟩ | ⟨text, htext, hinfix⟩
  · obtain ⟨fields', hb'', hcontent'⟩ := hbb'.content id fields hresult
    exact .inl ⟨id, fields', hb'', hcontent'.trans hlookup⟩
  · exact .inr ⟨text, hbb'.blockText.trans htext, hinfix⟩

theorem blockList_ensure {r : Message N} (h : r.content = .blocks r.content.blockList) :
    (ensureMessageContentArray r).content.blockList = r.content.blockList := by
  rw [ensureMessageContentArray, h]
  exact congrArg Content.blockList h

theorem isToolResult_of_isThinking {b : Block N} (h : isThinking b = true) :
    b.isToolUse = false ∧ b.isToolResult = false ∧ b.calledId = none ∧ blockText b = none := by
  have htext := (not_text_of_isThinking h).2
  cases b with
  | toolUse id fields => cases h
  | toolResult id fields => cases h
  | other block => exact ⟨rfl, rfl, rfl, htext⟩

/-- An assistant message that has no results when it is dressed has none after. -/
theorem noResults_dressed {r o : Message N} (hd : Dressed r o)
    (h : ∀ b ∈ (ensureMessageContentArray r).content.blockList, b.isToolResult = false) :
    ∀ b ∈ o.content.blockList, b.isToolResult = false := by
  obtain ⟨front, bs, hblocks, hsame, -, hfront⟩ := hd.blocks
  intro b hb
  rw [hblocks] at hb
  rcases mem_append.1 hb with hb | hb
  · exact (isToolResult_of_isThinking (hfront b hb)).2.1
  · obtain ⟨b', hb', hsame'⟩ := exists_of_forall₂ hsame.flip hb
    rw [SameBlock.isToolResult hsame']
    exact h b' hb'

theorem ordered_map_iff (bs : List (Block N)) :
    Ordered bs ↔ (bs.map fun b => (b.isToolUse, isText b)).Pairwise
      fun b c => b.1 = true → c.2 = false := by
  rw [Ordered, pairwise_map]

theorem ComesFrom.same {s : Message N} (h : ComesFrom s bs)
    (hsame : List.Forall₂ SameBlock bs bs') : ComesFrom s bs' where
  texts := by
    rw [filterMap_sameBlocks hsame fun _ _ h => h.blockText]
    exact h.texts
  calls := by
    rw [filterMap_sameBlocks hsame fun _ _ h => h.calledId]
    exact h.calls

theorem Ordered.same (h : Ordered bs) (hsame : List.Forall₂ SameBlock bs bs') : Ordered bs' := by
  have hmap : bs'.map (fun b => (b.isToolUse, isText b)) =
      bs.map fun b => (b.isToolUse, isText b) := by
    induction hsame with
    | nil => rfl
    | cons hb _ ih =>
      rw [map_cons, map_cons, hb.isToolUse, hb.isText, ih (Pairwise.of_cons h)]
  rw [ordered_map_iff, hmap, ← ordered_map_iff]
  exact h

/-- Parts that say the same. -/
theorem parts_same {run : List (Message N)} {parts : List (List (Block N))} {bs : List (Block N)}
    (hparts : List.Forall₂ (fun s part => ComesFrom s part ∧ Ordered part) run parts)
    (hsame : List.Forall₂ SameBlock parts.flatten bs) :
    ∃ parts', bs = parts'.flatten ∧
      List.Forall₂ (fun s part => ComesFrom s part ∧ Ordered part) run parts' := by
  induction hparts generalizing bs with
  | nil =>
    cases hsame
    exact ⟨[], rfl, .nil⟩
  | @cons s part run parts hpart hrest ih =>
    rw [flatten_cons] at hsame
    have htake := forall₂_take_append bs part parts.flatten hsame.flip
    have hdrop := forall₂_drop_append bs part parts.flatten hsame.flip
    obtain ⟨parts', hbs, hall⟩ := ih hdrop.flip
    refine ⟨bs.take part.length :: parts', ?_, .cons ⟨hpart.1.same htake.flip,
      hpart.2.same htake.flip⟩ hall⟩
    rw [flatten_cons, ← hbs, take_append_drop]

/-- Thinking before the first part. -/
theorem parts_front {run : List (Message N)} {parts : List (List (Block N))}
    {front : List (Block N)} (hne : run ≠ [])
    (hparts : List.Forall₂ (fun s part => ComesFrom s part ∧ Ordered part) run parts)
    (hfront : ∀ b ∈ front, isThinking b = true) :
    ∃ parts', front ++ parts.flatten = parts'.flatten ∧
      List.Forall₂ (fun s part => ComesFrom s part ∧ Ordered part) run parts' := by
  cases hparts with
  | nil => exact absurd rfl hne
  | @cons s part run parts hpart hrest =>
    have hnone : ∀ {β : Type} {f : Block N → Option β},
        (∀ b ∈ front, f b = none) → front.filterMap f = [] := fun h =>
      filterMap_eq_nil_iff.2 h
    refine ⟨(front ++ part) :: parts, (append_assoc _ _ _).symm, .cons ⟨⟨?_, ?_⟩, ?_⟩ hrest⟩
    · rw [filterMap_append, hnone fun b hb => (isToolResult_of_isThinking (hfront b hb)).2.2.2]
      exact hpart.1.texts
    · rw [filterMap_append, hnone fun b hb => (isToolResult_of_isThinking (hfront b hb)).2.2.1]
      exact hpart.1.calls
    · refine pairwise_append.2 ⟨?_, hpart.2, fun b hb c _ huse => ?_⟩
      · refine Pairwise.imp_of_mem (R := fun _ _ => True) (fun {b c} hb _ _ huse => ?_)
          (pairwise_of_forall fun _ _ => trivial)
        rw [(isToolResult_of_isThinking (hfront b hb)).1] at huse
        cases huse
      · rw [(isToolResult_of_isThinking (hfront b hb)).1] at huse
        cases huse

theorem nodup_eraseDups (l : List String) : l.eraseDups.Nodup := by
  match l with
  | [] => exact nodup_nil
  | a :: l =>
    rw [eraseDups_cons]
    refine nodup_cons.2 ⟨fun ha => ?_, nodup_eraseDups _⟩
    rw [mem_eraseDups, mem_filter] at ha
    simp at ha
termination_by l.length
decreasing_by exact Nat.lt_succ_of_le (length_filter_le _ _)

theorem suffix_of_forall₂ {α β : Type} {R : α → β → Prop} {l : List α} {l' s' : List β}
    (h : List.Forall₂ R l l') (hs : s' <:+ l') : ∃ s, s <:+ l ∧ List.Forall₂ R s s' := by
  obtain ⟨pre, rfl⟩ := hs
  exact ⟨l.drop pre.length, drop_suffix _ _, forall₂_drop_append l pre s' h⟩

theorem calls_dressed {r o : Message N} (hd : Dressed r o)
    (hcontent : r.content = .blocks r.content.blockList) :
    o.content.blockList.filterMap calledId = r.content.blockList.filterMap calledId := by
  obtain ⟨front, bs, hblocks, hsame, -, hfront⟩ := hd.blocks
  rw [blockList_ensure hcontent] at hsame
  have hnone : front.filterMap calledId = [] :=
    filterMap_eq_nil_iff.2 fun b hb => (isToolResult_of_isThinking (hfront b hb)).2.2.1
  rw [hblocks, filterMap_append, hnone, filterMap_sameBlocks hsame fun _ _ h => h.calledId]
  rfl

section Main

/-- The result of a call that is kept is in a user message before merging. -/
theorem inUser_filtered {preserve : Bool} {pre post : List (Message N)} {m : Message N}
    {id : String} (hid : id ≠ "") (hb : toolResult (some id) fields ∈ m.content.blockList)
    (hrole : m.role = .user ∨ m.role = .assistant ∧ calledBefore pre id) :
    ∃ fields', fields'.lookup "content" = fields.lookup "content" ∧
      InUser (.toolResult (some (sanitizeToolId id)) fields')
        (splitMisplacedToolResults (filtered preserve (pre ++ m :: post))) := by
  obtain ⟨fields', hb', hcontent⟩ := result_cleaned preserve hid hb
  have hvalid := hasValidContent_of_block preserve hb (.inr rfl)
  obtain ⟨l₁, l₂, hsplit, hbefore⟩ := @filtered_split _ preserve pre post m hvalid
  refine ⟨fields', hcontent, ?_⟩
  rw [hsplit]
  refine inUser_split hb' (hrole.imp (fun h => (role_cleaned preserve m).trans h) fun h => ?_)
  obtain ⟨hassistant, a, ha, harole, id', ufields, huse, hname, heq⟩ := h
  refine ⟨(role_cleaned preserve m).trans hassistant, cleaned preserve a,
    hbefore a ha (hasValidContent_of_block preserve huse (.inl rfl)),
    (role_cleaned preserve a).trans harole, ?_⟩
  rw [← heq]
  exact use_cleaned preserve hname huse

theorem isChain_of_roles {l l' : List (Message N)}
    (h : l'.map (fun m => m.role) = l.map fun m => m.role)
    (hl : l.IsChain fun m m' => m.role ≠ m'.role) : l'.IsChain fun m m' => m.role ≠ m'.role := by
  have hmap : (l.map fun m => m.role).IsChain (· ≠ ·) := (isChain_map _).2 hl
  rw [← h] at hmap
  exact (isChain_map _).1 hmap

theorem roles_dress (ep : Endpoint) (l : List (Message N)) :
    (dress ep l).map (fun m => m.role) = l.map fun m => m.role := by
  have hdressed := dressed_dress ep l
  generalize dress ep l = l' at hdressed
  induction hdressed with
  | nil => rfl
  | cons h _ ih => rw [map_cons, map_cons, h.role, ih]

variable [JsonNumber N]

/-- A reconciled user message begins with the results of the calls before it. -/
theorem paired_dressed {a u a' u' : Message N} {prev : Option (Message N)}
    (ha : a ∈ mergeMessages l) (hu : u ∈ mergeMessages l) (hrole : a.role = .assistant)
    (hrole' : u.role = .user) (hda : Dressed (reconcile prev a) a')
    (hdu : Dressed (reconcile (some a) u) u') : Paired a' u' := by
  have hsame : reconcile prev a = a := reconcile_of_ne_user prev (by rw [hrole]; decide)
  rw [hsame] at hda
  have hcalls := calls_dressed hda (content_merged ha)
  have hcontent := content_reconcile hu hrole' (some a)
  obtain ⟨front, bs, hblocks, hsame, hfront, -⟩ := hdu.blocks
  have hnil : front = [] := by
    by_contra hne
    have hassistant := hfront hne
    rw [hdu.role, role_reconcile, hrole'] at hassistant
    cases hassistant
  rw [blockList_ensure (by rw [hcontent]; rfl), hcontent, Content.blockList,
    validIds_eq ha hrole] at hsame
  generalize hvalid : (a.content.blockList.filterMap calledId).eraseDups = valid at hsame
  have hmem : ∀ id, id ∈ valid ↔ id ∈ a.content.blockList.filterMap calledId := fun id => by
    rw [← hvalid, mem_eraseDups]
  have hvalid_ne : ∀ id ∈ valid, id ≠ "" := by
    intro id hid
    obtain ⟨b, -, hb⟩ := mem_filterMap.1 ((hmem id).1 hid)
    cases b with
    | toolUse id' fields => exact (truthyId_eq_some.1 hb).2
    | _ => cases hb
  obtain ⟨hresults, hids⟩ := pairedResults_spec hvalid_ne u.content.blockList
  have htake := forall₂_take_append bs _ _ hsame.flip
  have hdrop := forall₂_drop_append bs _ _ hsame.flip
  have hanswered : (bs.take (pairedResults valid u.content.blockList).length).map
      answeredId = valid.map some := by
    rw [map_sameBlocks htake.flip fun _ _ h => h.answeredId, hids]
  refine ⟨bs.take (pairedResults valid u.content.blockList).length,
    bs.drop (pairedResults valid u.content.blockList).length, ?_, fun b hb => ?_, fun b hb => ?_,
    ?_, fun id => ?_⟩
  · rw [hblocks, hnil, nil_append, take_append_drop]
  · obtain ⟨b', hb', hsame'⟩ := exists_of_forall₂ htake hb
    rw [SameBlock.isToolResult hsame']
    exact hresults b' hb'
  · obtain ⟨b', hb', hsame'⟩ := exists_of_forall₂ hdrop hb
    rw [SameBlock.isToolResult hsame']
    exact isToolResult_otherContent valid b' hb'
  · rw [hanswered, ← hvalid]
    exact (nodup_eraseDups _).map (Option.some_injective _)
  · rw [hanswered, hcalls, mem_map]
    constructor
    · rintro ⟨c, hc, rfl⟩
      exact ⟨c, (hmem c).1 hc, rfl⟩
    · rintro ⟨c, hc, rfl⟩
      exact ⟨c, (hmem c).2 hc, rfl⟩

/-- Where the results of the client are before they are merged. -/
def Kept (msgs l : List (Message N)) : Prop :=
  ∀ pre m post, msgs = pre ++ m :: post → ∀ id fields, id ≠ "" →
    toolResult (some id) fields ∈ m.content.blockList →
    (m.role = .user ∨ calledBefore pre id) → ∃ fields',
      fields'.lookup "content" = fields.lookup "content" ∧
      InUser (.toolResult (some (sanitizeToolId id)) fields') l

omit [JsonNumber N] in
/-- A message that stands alone and has no result is only dressed. -/
theorem prepared_alone (ep : Endpoint) {msgs l : List (Message N)} (hlength : l.length ≤ 1)
    (hresult : ∀ m ∈ l, hasResult m = false) (hkept : Kept msgs l) :
    Prepared msgs (dress ep l) := by
  have hdressed := dressed_dress ep l
  have hshort : ¬2 ≤ (dress ep l).length := by
    rw [← hdressed.length_eq]
    omega
  refine ⟨?_, fun m hm _ => ?_, fun htwo => absurd htwo hshort, fun a u rest hsuffix => ?_,
    fun pre m post hsplit id fields s hid hb _ hrole => ?_⟩
  · match hout : dress ep l with
    | [] => exact isChain_nil
    | [m] => exact isChain_singleton m
    | m :: m' :: rest => exact absurd (by rw [hout]; exact Nat.le_add_left 2 _) hshort
  · obtain ⟨r, hr, hd⟩ := exists_of_forall₂ hdressed.flip hm
    refine noResults_dressed hd fun b hb => ?_
    have hnone := any_eq_false.1 (hresult r hr)
    rw [ensureMessageContentArray] at hb
    split at hb
    · split at hb
      · exact Bool.not_eq_true _ ▸ hnone b hb
      · obtain rfl := mem_singleton.1 hb
        rfl
    · exact Bool.not_eq_true _ ▸ hnone b hb
  · have hle := hsuffix.length_le
    rw [length_cons, length_cons] at hle
    omega
  · obtain ⟨fields', -, u, hu, -, hmem⟩ := hkept pre m post hsplit id fields hid hb hrole
    exact absurd rfl (any_eq_false.1 (hresult u hu) _ hmem)

/-- Merged and reconciled messages are valid. -/
theorem prepared_reconciled (ep : Endpoint) {msgs l : List (Message N)} (hkept : Kept msgs l)
    (hparts : ∀ m ∈ mergeMessages (l.map orderUses), m.role = .assistant →
      ∃ (run : List (Message N)) (parts : List (List (Block N))), run.Sublist msgs ∧ run ≠ [] ∧
        (∀ s ∈ run, s.role = .assistant) ∧ m.content.blockList = parts.flatten ∧
        List.Forall₂ (fun s part => ComesFrom s part ∧ Ordered part) run parts)
    (hnone : ∀ m ∈ mergeMessages (l.map orderUses), m.role = .assistant →
      ∀ b ∈ m.content.blockList, b.isToolResult = false) :
    Prepared msgs (dress ep (reconcileFrom none (mergeMessages (l.map orderUses)))) := by
  have hdressed := dressed_dress ep (reconcileFrom none (mergeMessages (l.map orderUses)))
  -- An assistant message of the result is a merged message that was dressed.
  have hassistant : ∀ m ∈ dress ep (reconcileFrom none (mergeMessages (l.map orderUses))),
      m.role = .assistant → ∃ r ∈ mergeMessages (l.map orderUses), r.role = .assistant ∧
        Dressed r m := by
    intro m hm hrole
    obtain ⟨r, hr, hd⟩ := exists_of_forall₂ hdressed.flip hm
    obtain ⟨pre, post, hsplit⟩ := append_of_mem hr
    obtain ⟨prev, r', t, ht, rfl, -⟩ := suffix_reconcileFrom ⟨pre, hsplit.symm⟩
    have hrole' : r'.role = .assistant := by
      rw [← role_reconcile prev r', ← Dressed.role hd]
      exact hrole
    have hd : Dressed (reconcile prev r') m := hd
    rw [reconcile_of_ne_user prev (by rw [hrole']; decide)] at hd
    exact ⟨r', ht.subset mem_cons_self, hrole', hd⟩
  refine ⟨?_, fun m hm hrole => ?_, fun _ m hm hrole => ?_,
    fun a u rest hsuffix hrole hrole' => ?_, fun pre m post hsplit id fields s hid hb hs hrole => ?_⟩
  · refine isChain_of_roles ?_ (isChain_mergeMessages (l.map orderUses))
    rw [roles_dress, roles_reconcileFrom]
  · obtain ⟨r, hr, hrole', hd⟩ := hassistant m hm hrole
    refine noResults_dressed hd ?_
    rw [blockList_ensure (content_merged hr)]
    exact hnone r hr hrole'
  · obtain ⟨r, hr, hrole', hd⟩ := hassistant m hm hrole
    obtain ⟨run, parts, hrun, hne, hroles, hflatten, hall⟩ := hparts r hr hrole'
    obtain ⟨front, bs, hblocks, hsame, -, hfront⟩ := hd.blocks
    rw [blockList_ensure (content_merged hr), hflatten] at hsame
    obtain ⟨parts', rfl, hall'⟩ := parts_same hall hsame
    obtain ⟨parts'', hflatten'', hall''⟩ := parts_front hne hall' hfront
    exact ⟨run, parts'', hrun, hroles, hblocks.trans hflatten'', hall''⟩
  · obtain ⟨s, hs, hall⟩ := suffix_of_forall₂ hdressed hsuffix
    cases hall with
    | cons hda hall =>
      cases hall with
      | cons hdu _ =>
        obtain ⟨prev, m, m', t, ht, rfl, rfl⟩ := suffix_pair hs
        refine paired_dressed (ht.subset mem_cons_self)
          (ht.subset (.tail _ mem_cons_self)) ?_ ?_ hda hdu
        · rw [← role_reconcile prev m, ← hda.role]
          exact hrole
        · rw [← role_reconcile (some m) m', ← hdu.role]
          exact hrole'
  · obtain ⟨fields', hlookup, huser⟩ := hkept pre m post hsplit id fields hid hb hrole
    obtain ⟨u, hu, hurole, hmem⟩ := inUser_merged rfl huser
    obtain ⟨prev, hprev⟩ := @mem_reconcileFrom N _ _ none u hu
    have hcarries := carries_reconcile hu hurole hmem (hlookup.trans hs) prev
    obtain ⟨o, ho, hd⟩ := exists_of_forall₂ hdressed hprev
    refine ⟨o, ho, hd.role.trans ((role_reconcile prev u).trans hurole), hcarries.dressed hd ?_⟩
    rw [content_reconcile hu hurole]
    rfl

/-- **The prepared messages are valid**, up to texts that come from a later message than the calls
before them and results in assistant messages whose call was not made before. -/
theorem prepareClaudeRequest_valid (ep : Endpoint) (msgs : List (Message N))
    (hroles : ∀ m ∈ msgs, m.role = .user ∨ m.role = .assistant) :
    Prepared msgs (prepareClaudeRequest ep msgs) := by
  have heq : prepareClaudeRequest ep msgs = dress ep (fixToolUseOrdering
      (splitMisplacedToolResults (filtered ep.preserveCacheControl msgs))) := rfl
  have hkept : Kept msgs (splitMisplacedToolResults (filtered ep.preserveCacheControl msgs)) := by
    intro pre m post hsplit id fields hid hb hrole
    rw [hsplit]
    refine inUser_filtered hid hb ?_
    rcases hroles m (by simp [hsplit]) with hm | hm
    · exact .inl hm
    · exact hrole.imp_right fun h => ⟨hm, h⟩
  rw [heq]
  rcases fixToolUseOrdering_cases (splitMisplacedToolResults
    (filtered ep.preserveCacheControl msgs)) with ⟨hlength, hresult, hfix⟩ | hfix
  · rw [hfix]
    exact prepared_alone ep hlength hresult hkept
  · rw [hfix]
    refine prepared_reconciled ep hkept (fun m hm hrole => parts_of_assistant hm hrole)
      fun m hm hrole => ?_
    obtain ⟨run, hrun, hsub⟩ := mem_run hm
    rw [map_map] at hsub
    obtain ⟨xs, -, -, -, -, hnone⟩ := merged_assistant hrun hrole hsub
    exact hnone

end Main

/-! ## A result that is dropped -/

def plainEndpoint : Endpoint where
  preserveCacheControl := true
  supportsPromptCaching := false
  isKimiCoding := false
  modelTargetsClaude := false
  thinkingTypeEnabled := false
  lookupReasoning _ := none
  defaultSignature := ""

/-- A result in an assistant message, its call lost. -/
def lostCall : List (Message ℤ) :=
  [{ role := .user, content := .text "Go on." },
    { role := .assistant
      content := .blocks
        [textBlock "I looked it up.", .toolResult (some "toolu_1") [("content", .str "42")]] },
    { role := .user, content := .text "Thanks." }]

theorem prepareClaudeRequest_valid_lostCall :
    Prepared lostCall (prepareClaudeRequest plainEndpoint lostCall) :=
  prepareClaudeRequest_valid plainEndpoint lostCall (by decide)

/-- The text of the result is in none of the messages. -/
theorem lostCall_dropped : ¬ApiValid lostCall (prepareClaudeRequest plainEndpoint lostCall) := by
  intro h
  have hprepared : prepareClaudeRequest plainEndpoint lostCall =
      [{ role := .user, content := .blocks [textBlock "Go on."] },
        { role := .assistant, content := .blocks [textBlock "I looked it up."] },
        { role := .user, content := .blocks [textBlock "Thanks."] }] := by
    with_unfolding_all rfl
  have hkept := h.kept _ (.tail _ mem_cons_self) (some "toolu_1") [("content", .str "42")] "42"
    (.tail _ mem_cons_self) rfl
  rw [hprepared] at hkept
  obtain ⟨u, hu, hrole, b, hb, hcarries⟩ := hkept
  have htext : ∃ text ∈ ["Go on.", "Thanks."], b = textBlock text := by
    rcases mem_cons.1 hu with rfl | hu
    · exact ⟨_, mem_cons_self, mem_singleton.1 hb⟩
    · rcases mem_cons.1 hu with rfl | hu
      · cases hrole
      · obtain rfl := mem_singleton.1 hu
        exact ⟨_, .tail _ mem_cons_self, mem_singleton.1 hb⟩
  obtain ⟨text, htext, rfl⟩ := htext
  rcases hcarries with ⟨id, fields, hresult, -⟩ | ⟨text', htext', hinfix⟩
  · cases hresult
  · rw [blockText_textBlock] at htext'
    cases htext'
    have hnone : ∀ text ∈ ["Go on.", "Thanks."], ¬"42".toList <:+: text.toList := by
      decide +kernel
    exact hnone text htext hinfix

end PrepareClaude

end OmniRoute.ToolPairing
