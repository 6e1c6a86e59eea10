import OmniRoute.ClaudeRequest.Adjacency

/-!
# Merging neighbours

What the merging of neighbouring messages keeps: the texts and the results in their order, and the
calls of every message together, in one message of their own (`merged_mergeItems`).
-/

namespace OmniRoute.ClaudeRequest

open ToolPairing List Block

variable {N : Type}

/-- The items as messages, none merged. -/
def unmerged (items : List (Role × List (Block N))) : List (ClaudeMessage N) :=
  items.map fun item => ⟨item.1, item.2⟩

/-- The blocks of a message of one side: results only, or no results. -/
def ItemSided (item : Role × List (Block N)) : Prop :=
  Sided (⟨item.1, item.2⟩ : ClaudeMessage N) ∧
    (item.1 = .user ∧ item.2.filter isToolResult = item.2 ∨
      item.2.filter isToolResult = [])

/-- What is kept of the items that were merged into these messages. -/
structure Merged (items : List (Role × List (Block N))) (ms : List (ClaudeMessage N)) : Prop where
  sided : ∀ m ∈ ms, Sided m
  filled : ∀ m ∈ ms, m.content ≠ []
  texts : texts ms = texts (unmerged items)
  results : results ms = results (unmerged items)
  groups : ms.filterMap group = (unmerged items).filterMap group

/-- The open message, empty if there is none. -/
def Building.opened (s : Building N) : List (ClaudeMessage N) :=
  s.currentRole.toList.map fun role => ⟨role, s.currentParts⟩

/-- What is kept while the last message is open. -/
structure MergedOpen (items : List (Role × List (Block N))) (s : Building N) : Prop where
  sided : ∀ m ∈ s.messages, Sided m
  filled : ∀ m ∈ s.messages, m.content ≠ []
  role : s.currentParts ≠ [] → s.currentRole = some .user ∨ s.currentRole = some .assistant
  no_uses : s.currentParts.filter isToolUse = []
  no_results : s.currentParts.filter isToolResult = []
  texts : ClaudeRequest.texts (s.messages ++ s.opened) = ClaudeRequest.texts (unmerged items)
  results : ClaudeRequest.results s.messages = ClaudeRequest.results (unmerged items)
  groups : s.messages.filterMap group = (unmerged items).filterMap group

theorem texts_append (l l' : List (ClaudeMessage N)) : texts (l ++ l') = texts l ++ texts l' :=
  flatMap_append

theorem results_append (l l' : List (ClaudeMessage N)) :
    results (l ++ l') = results l ++ results l' :=
  flatMap_append

theorem texts_singleton (m : ClaudeMessage N) : texts [m] = m.texts :=
  flatMap_singleton _ m

theorem results_singleton (m : ClaudeMessage N) : results [m] = m.results :=
  flatMap_singleton _ m

theorem unmerged_concat (items : List (Role × List (Block N))) (item : Role × List (Block N)) :
    unmerged (items ++ [item]) = unmerged items ++ [⟨item.1, item.2⟩] :=
  map_append

theorem message_texts_append (role : Role) (bs bs' : List (Block N)) :
    (⟨role, bs ++ bs'⟩ : ClaudeMessage N).texts =
      (⟨role, bs⟩ : ClaudeMessage N).texts ++ (⟨role, bs'⟩ : ClaudeMessage N).texts := by
  rw [ClaudeMessage.texts, filterMap_append, map_append]
  rfl

variable {s : Building N}

/-- An open message without parts says nothing. -/
theorem texts_opened_nil (h : s.currentParts = []) : texts s.opened = [] := by
  unfold Building.opened
  rw [h]
  cases s.currentRole <;> rfl

/-- What the open message says, where its role is known. -/
theorem texts_opened_some {role : Role} (h : s.currentRole = some role) :
    texts s.opened = (⟨role, s.currentParts⟩ : ClaudeMessage N).texts := by
  unfold Building.opened
  rw [h]
  exact texts_singleton _

variable {items : List (Role × List (Block N))} {item : Role × List (Block N)}

section

variable (h : MergedOpen items s)
include h

/-- The parts of the open message are closed together with those of an item. -/
theorem MergedOpen.close
    (hopen : s.currentParts = [] ∨ s.currentRole = some item.1) (hne : item.2 ≠ [])
    (hsided : Sided (⟨item.1, item.2⟩ : ClaudeMessage N)) (currentRole : Option Role) :
    MergedOpen (items ++ [item])
      ⟨s.messages ++ [⟨item.1, s.currentParts ++ item.2⟩], currentRole, []⟩ := by
  have huses : (⟨item.1, s.currentParts ++ item.2⟩ : ClaudeMessage N).uses =
      (⟨item.1, item.2⟩ : ClaudeMessage N).uses := by
    rw [ClaudeMessage.uses, filter_append, h.no_uses]
    rfl
  have hresults : (⟨item.1, s.currentParts ++ item.2⟩ : ClaudeMessage N).results =
      (⟨item.1, item.2⟩ : ClaudeMessage N).results := by
    rw [ClaudeMessage.results, filter_append, h.no_results]
    rfl
  have hopened : ClaudeRequest.texts s.opened = (⟨item.1, s.currentParts⟩ : ClaudeMessage N).texts := by
    rcases hopen with hnil | hrole
    · rw [texts_opened_nil hnil, hnil]
      rfl
    · exact texts_opened_some hrole
  constructor
  · intro m hm
    rcases mem_append.1 hm with hm | hm
    · exact h.sided m hm
    · rw [mem_singleton.1 hm, Sided, huses, hresults]
      exact hsided
  · intro m hm
    rcases mem_append.1 hm with hm | hm
    · exact h.filled m hm
    · rw [mem_singleton.1 hm]
      exact append_ne_nil_of_right_ne_nil _ hne
  · exact fun hne => absurd rfl hne
  · rfl
  · rfl
  · have htexts := h.texts
    rw [texts_append] at htexts
    rw [texts_append, texts_opened_nil rfl, append_nil, unmerged_concat, texts_append,
      texts_append, texts_singleton, texts_singleton, message_texts_append, ← hopened,
      ← append_assoc, htexts]
  · rw [results_append, h.results, unmerged_concat, results_append, results_singleton,
      results_singleton, hresults]
  · have hgroup : group (⟨item.1, s.currentParts ++ item.2⟩ : ClaudeMessage N) =
        group ⟨item.1, item.2⟩ := by
      rw [group, huses]
      rfl
    rw [filterMap_append, h.groups, unmerged_concat, filterMap_append]
    congr 1
    rw [filterMap_cons, filterMap_cons, hgroup]

/-- Parts that call nothing and answer nothing stay open. -/
theorem MergedOpen.extend
    (hsided : Sided (⟨item.1, item.2⟩ : ClaudeMessage N)) (hrole : s.currentRole = some item.1)
    (huses : item.2.filter isToolUse = []) (hresults : item.2.filter isToolResult = []) :
    MergedOpen (items ++ [item]) { s with currentParts := s.currentParts ++ item.2 } := by
  constructor
  · exact h.sided
  · exact h.filled
  · intro _
    rcases hsided with ⟨hitem, -⟩ | ⟨hitem, -⟩
    · exact .inl (hrole.trans (congrArg some hitem))
    · exact .inr (hrole.trans (congrArg some hitem))
  · rw [filter_append, h.no_uses, huses]
    rfl
  · rw [filter_append, h.no_results, hresults]
    rfl
  · have htexts := h.texts
    rw [texts_append, texts_opened_some hrole] at htexts
    have hopened := texts_opened_some (s := { s with currentParts := s.currentParts ++ item.2 }) hrole
    rw [unmerged_concat, texts_append, texts_append, ← htexts, texts_singleton, hopened,
      message_texts_append, append_assoc]
  · have hnone : (⟨item.1, item.2⟩ : ClaudeMessage N).results = [] := hresults
    rw [h.results, unmerged_concat, results_append, results_singleton, hnone, append_nil]
  · have hnone : group (⟨item.1, item.2⟩ : ClaudeMessage N) = none :=
      if_neg fun hc => hc.2 huses
    rw [h.groups, unmerged_concat, filterMap_append, filterMap_cons_none hnone]
    exact (append_nil _).symm

/-- Closing the open message changes nothing that is kept. -/
theorem MergedOpen.flush :
    MergedOpen items (flushCurrentMessage s) ∧ (flushCurrentMessage s).currentParts = [] := by
  obtain ⟨messages, currentRole, currentParts⟩ := s
  cases currentParts with
  | nil =>
    have hsame : flushCurrentMessage (⟨messages, currentRole, []⟩ : Building N) =
        ⟨messages, currentRole, []⟩ := by
      cases currentRole <;> rfl
    rw [hsame]
    exact ⟨h, rfl⟩
  | cons part parts =>
    obtain ⟨role, rfl, hrole⟩ :
        ∃ role, currentRole = some role ∧ (role = .user ∨ role = .assistant) := by
      rcases h.role (cons_ne_nil _ _) with hrole | hrole
      · exact ⟨_, hrole, .inl rfl⟩
      · exact ⟨_, hrole, .inr rfl⟩
    have huses : (⟨role, part :: parts⟩ : ClaudeMessage N).uses = [] := h.no_uses
    have hresults : (⟨role, part :: parts⟩ : ClaudeMessage N).results = [] := h.no_results
    refine ⟨?_, rfl⟩
    show MergedOpen items ⟨messages ++ [⟨role, part :: parts⟩], some role, []⟩
    constructor
    · intro m hm
      rcases mem_append.1 hm with hm | hm
      · exact h.sided m hm
      · rw [mem_singleton.1 hm]
        rcases hrole with rfl | rfl
        · exact .inl ⟨rfl, huses⟩
        · exact .inr ⟨rfl, hresults⟩
    · intro m hm
      rcases mem_append.1 hm with hm | hm
      · exact h.filled m hm
      · rw [mem_singleton.1 hm]
        exact cons_ne_nil _ _
    · exact fun hne => absurd rfl hne
    · rfl
    · rfl
    · rw [← h.texts, texts_append, texts_opened_nil rfl, append_nil]
      rfl
    · rw [results_append, results_singleton, hresults, append_nil]
      exact h.results
    · have hnone : group (⟨role, part :: parts⟩ : ClaudeMessage N) = none :=
        if_neg fun hc => hc.2 huses
      rw [filterMap_append, filterMap_cons_none hnone, ← h.groups]
      exact append_nil _

/-- The role of the open message changes while it has no parts. -/
theorem MergedOpen.turn (hparts : s.currentParts = []) (role : Role) :
    MergedOpen items { s with currentRole := some role } where
  sided := h.sided
  filled := h.filled
  role hne := absurd hparts hne
  no_uses := h.no_uses
  no_results := h.no_results
  texts := by
    have htexts := h.texts
    have hopened := texts_opened_nil (s := { s with currentRole := some role }) hparts
    rw [texts_append, texts_opened_nil hparts] at htexts
    rw [texts_append, hopened]
    exact htexts
  results := h.results
  groups := h.groups

/-- One item is merged. -/
theorem MergedOpen.addBlocks (hitem : ItemSided item) :
    MergedOpen (items ++ [item]) (addBlocks item.1 s item.2) := by
  obtain ⟨hsided, hside⟩ := hitem
  unfold ClaudeRequest.addBlocks
  dsimp only
  by_cases hany : item.2.any isToolResult = true
  · -- a result closes the open message and stands alone
    obtain ⟨b, hb, hbresult⟩ := any_eq_true.1 hany
    rcases hside with ⟨huser, hall⟩ | hnone
    · have hothers : (item.2.filter fun block => !block.isToolResult) = [] := by
        refine filter_eq_nil_iff.2 fun b hb => ?_
        have hb' := filter_eq_self.1 hall b hb
        rw [hb']
        decide
      have hclose := h.flush.1.close (.inl h.flush.2) (ne_nil_of_mem hb) hsided
        (flushCurrentMessage s).currentRole
      rw [h.flush.2, List.nil_append, huser] at hclose
      rw [if_pos hany, if_pos hothers, hall]
      convert hclose using 2
      exact h.flush.2
    · exact absurd (hnone ▸ mem_filter.2 ⟨hb, hbresult⟩) not_mem_nil
  · rw [if_neg hany]
    have hresults : item.2.filter isToolResult = [] := by
      refine filter_eq_nil_iff.2 fun b hb hresult => hany ?_
      exact any_eq_true.2 ⟨b, hb, hresult⟩
    obtain ⟨s₁, hs₁, hmerged, hrole⟩ : ∃ s₁,
        (if s.currentRole = some item.1 then s
          else { flushCurrentMessage s with currentRole := some item.1 }) = s₁ ∧
          MergedOpen items s₁ ∧ s₁.currentRole = some item.1 := by
      refine ⟨_, rfl, ?_⟩
      split
      · next hsame => exact ⟨h, hsame⟩
      · exact ⟨h.flush.1.turn h.flush.2 _, rfl⟩
    rw [hs₁]
    by_cases huse : item.2.any isToolUse = true
    · obtain ⟨b, hb, -⟩ := any_eq_true.1 huse
      have hne : item.2 ≠ [] := ne_nil_of_mem hb
      have hclose := hmerged.close (.inr hrole) hne hsided (some item.1)
      rw [if_pos huse]
      obtain ⟨part, parts, hparts⟩ :=
        exists_cons_of_ne_nil (append_ne_nil_of_right_ne_nil s₁.currentParts hne)
      have hflush : flushCurrentMessage { s₁ with currentParts := s₁.currentParts ++ item.2 } =
          ⟨s₁.messages ++ [⟨item.1, s₁.currentParts ++ item.2⟩], some item.1, []⟩ := by
        unfold flushCurrentMessage
        dsimp only
        rw [hrole, hparts]
      rw [hflush]
      exact hclose
    · have huses : item.2.filter isToolUse = [] := by
        refine filter_eq_nil_iff.2 fun b hb hcall => huse ?_
        exact any_eq_true.2 ⟨b, hb, hcall⟩
      rw [if_neg huse]
      exact hmerged.extend hsided hrole huses hresults

theorem mergedOpen_foldl {rest : List (Role × List (Block N))}
    (hrest : ∀ item ∈ rest, ItemSided item) :
    MergedOpen (items ++ rest)
      (rest.foldl (fun s item => ClaudeRequest.addBlocks item.1 s item.2) s) := by
  induction rest generalizing items s with
  | nil =>
    rw [append_nil]
    exact h
  | cons item rest ih =>
    have hone := h.addBlocks (hrest item mem_cons_self)
    have hall := ih hone fun item' hitem' => hrest item' (mem_cons_of_mem _ hitem')
    rw [append_assoc] at hall
    exact hall

end

/-- **Merging keeps the texts, the results and the calls of every message.** -/
theorem merged_mergeItems (h : ∀ item ∈ items, ItemSided item) :
    Merged items (mergeItems items) := by
  have hstart : MergedOpen [] ({} : Building N) := by
    constructor
    · exact fun m hm => absurd hm not_mem_nil
    · exact fun m hm => absurd hm not_mem_nil
    · exact fun hne => absurd rfl hne
    · rfl
    · rfl
    · rfl
    · rfl
    · rfl
  have hrun := (mergedOpen_foldl hstart h).flush
  rw [List.nil_append] at hrun
  unfold mergeItems
  dsimp only
  generalize flushCurrentMessage _ = s at hrun ⊢
  have hkept : (s.messages.filter fun msg =>
      !(decide (msg.role = .assistant) && msg.content.isEmpty)) = s.messages := by
    refine filter_eq_self.2 fun m hm => ?_
    have hfilled := hrun.1.filled m hm
    simp [hfilled]
  have htexts := hrun.1.texts
  rw [texts_append, texts_opened_nil hrun.2, append_nil] at htexts
  rw [hkept]
  exact ⟨hrun.1.sided, hrun.1.filled, htexts, hrun.1.results, hrun.1.groups⟩

/-! ## The ids of the calls -/

theorem uses_filterMap_useId (m : ClaudeMessage N) :
    m.uses.filterMap useId = m.content.filterMap useId := by
  rw [ClaudeMessage.uses, filterMap_filter]
  refine filterMap_congr fun b _ => ?_
  cases hb : b.isToolUse with
  | true => rfl
  | false => exact (useId_none_of_not_use hb).symm

/-- The ids of the messages are those of their calls. -/
theorem callIds_eq {ms : List (ClaudeMessage N)} (hsided : ∀ m ∈ ms, Sided m) :
    callIds ms = (ms.filterMap group).flatten.filterMap useId := by
  rw [filterMap_flatten, ← flatMap_def, filterMap_eq_flatMap_toList group, flatMap_assoc, callIds]
  refine flatMap_congr fun m hm => ?_
  rw [← uses_filterMap_useId]
  by_cases huses : m.uses = []
  · have hnone : group m = none := if_neg fun hc => hc.2 huses
    rw [huses, hnone]
    rfl
  · have hrole : m.role = .assistant := by
      rcases hsided m hm with ⟨-, hnil⟩ | ⟨hrole, -⟩
      · exact absurd hnil huses
      · exact hrole
    have hsome : group m = some m.uses := if_pos ⟨hrole, huses⟩
    rw [hsome, Option.toList_some, flatMap_singleton]

end OmniRoute.ClaudeRequest
