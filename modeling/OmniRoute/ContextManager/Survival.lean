import OmniRoute.ContextManager.Remains

/-!
# What survives the repair

When the history is cut to its last messages, the repair removes what the cut has left unpaired, and
that may be all of it: results whose call was cut off go, and so do calls that no message answers.

Both kinds of passes thin a list out in the same way (`Thinning`): they keep what is not made up of
calls and results, and of these the ones that pass a test on the id. A run of the three passes is
followed forwards and backwards along the suffixes of the list.

**Main result (`repair_ne_nil_iff`).** Something is left of messages exactly when one of them has
own content, when the first message that stays behind a call answers it, or when two messages make
calls that need no answer (`Outlasts`).
-/

namespace OmniRoute.ContextManager

open JsData List Option Lookahead

variable {N : Type} (num : JsNumbers N)

def resultIds (messages : List (JsData N)) : List (JsData N) := messages.flatMap (answeredIds num)

def callIds (messages : List (JsData N)) : List (JsData N) := messages.flatMap (calledIds num)

/-! ## Passes that thin out -/

/-- A message that such a pass leaves: `rest` is what follows it. -/
def stays (keeps : List (JsData N) → JsData N → Bool) (answers : JsData N → Bool)
    (msg : JsData N) (rest : List (JsData N)) : Bool :=
  hasOwn num msg || hasFreeCall num msg || (answeredIds num msg).any answers ||
    (calledIds num msg).any (keeps rest)

/-- The pass by `f` drops a message or keeps some of its ids, and keeps a message of which
something is left. -/
structure Thinning (f : JsData N → Option (JsData N) → List (JsData N))
    (keeps : List (JsData N) → JsData N → Bool) (answers : JsData N → Bool)
    (messages : List (JsData N)) : Prop where
  step : ∀ msg rest, msg :: rest <:+ messages →
    f msg rest.head? = [] ∨ ∃ msg', f msg rest.head? = [msg'] ∧
      Left num (keeps rest) answers msg msg'
  stay : ∀ msg rest, msg :: rest <:+ messages → stays num keeps answers msg rest = true →
    f msg rest.head? ≠ []
  last : ∀ c, keeps [] c = true

namespace Thinning

variable {num} {f : JsData N → Option (JsData N) → List (JsData N)}
  {keeps : List (JsData N) → JsData N → Bool} {answers : JsData N → Bool}
  {messages : List (JsData N)}

section

variable (h : Thinning num f keeps answers messages)
include h

theorem suffix {tail : List (JsData N)}
    (htail : tail <:+ messages) : Thinning num f keeps answers tail where
  step msg rest hrest := h.step msg rest (hrest.trans htail)
  stay msg rest hrest := h.stay msg rest (hrest.trans htail)
  last := h.last

/-- Where a message of the result comes from, and what follows it. -/
theorem source {msg' : JsData N}
    {rest' : List (JsData N)} (hsuffix : msg' :: rest' <:+ pass f messages none) :
    ∃ msg rest, msg :: rest <:+ messages ∧ Left num (keeps rest) answers msg msg' ∧
      rest' = pass f rest none := by
  obtain ⟨msg, rest, u, v, hmsg, hf, hrest⟩ := suffix_pass f hsuffix
  rw [or_none] at hf
  rcases h.step msg rest hmsg with hnil | ⟨m, hm, hleft⟩
  · rw [hnil] at hf
    simp at hf
  · rw [hm, eq_comm, append_eq_singleton_iff] at hf
    rcases hf with ⟨-, hv⟩ | ⟨-, hv⟩
    · obtain ⟨rfl, rfl⟩ := List.cons.inj hv
      exact ⟨msg, rest, hmsg, hleft, hrest⟩
    · cases hv

/-- What becomes of a message that stays. -/
theorem image {msg : JsData N} {rest : List (JsData N)} (hsuffix : msg :: rest <:+ messages)
    (hstays : stays num keeps answers msg rest = true) :
    ∃ msg', Left num (keeps rest) answers msg msg' ∧
      msg' :: pass f rest none <:+ pass f messages none := by
  rcases h.step msg rest hsuffix with hnil | ⟨msg', hf, hleft⟩
  · exact absurd hnil (h.stay msg rest hsuffix hstays)
  · refine ⟨msg', hleft, ?_⟩
    have hpass := pass_suffix f (z := none) hsuffix
    rwa [or_none, hf] at hpass

/-- What is left comes from a message that was there. -/
theorem origin {msg' : JsData N} (hmsg' : msg' ∈ pass f messages none) :
    ∃ msg ∈ messages, ∃ rest, Left num (keeps rest) answers msg msg' := by
  obtain ⟨pre, post, hsplit⟩ := append_of_mem hmsg'
  obtain ⟨msg, rest, hmsg, hleft, -⟩ := h.source ⟨pre, hsplit.symm⟩
  exact ⟨msg, hmsg.subset mem_cons_self, rest, hleft⟩

theorem mem_resultIds_iff {r : JsData N} :
    r ∈ resultIds num (pass f messages none) ↔
      r ∈ resultIds num messages ∧ answers r = true := by
  unfold resultIds
  rw [mem_flatMap, mem_flatMap]
  constructor
  · rintro ⟨msg', hmsg', hr⟩
    obtain ⟨msg, hmsg, rest, hleft⟩ := h.origin hmsg'
    rw [hleft.answered, mem_filter] at hr
    exact ⟨⟨msg, hmsg, hr.1⟩, hr.2⟩
  · rintro ⟨⟨msg, hmsg, hr⟩, hanswers⟩
    obtain ⟨pre, rest, hsplit⟩ := append_of_mem hmsg
    have hstays : stays num keeps answers msg rest = true := by
      rw [stays, List.any_eq_true.2 ⟨r, hr, hanswers⟩, Bool.or_true, Bool.true_or]
    obtain ⟨msg', hleft, hmsg'⟩ := h.image ⟨pre, hsplit.symm⟩ hstays
    refine ⟨msg', hmsg'.subset mem_cons_self, ?_⟩
    rw [hleft.answered]
    exact mem_filter.2 ⟨hr, hanswers⟩

theorem sameRole {msg' : JsData N}
    (hmsg' : msg' ∈ pass f messages none) : ∃ msg ∈ messages, SameRole msg msg' := by
  obtain ⟨msg, hmsg, rest, hleft⟩ := h.origin hmsg'
  exact ⟨msg, hmsg, hleft.role⟩

/-- Own content is kept. -/
theorem own (hown : ∃ msg ∈ messages, hasOwn num msg = true) :
    ∃ msg ∈ pass f messages none, hasOwn num msg = true := by
  obtain ⟨msg, hmsg, hown⟩ := hown
  obtain ⟨pre, rest, hsplit⟩ := append_of_mem hmsg
  have hstays : stays num keeps answers msg rest = true := by
    rw [stays, hown, Bool.true_or, Bool.true_or, Bool.true_or]
  obtain ⟨msg', hleft, hmsg'⟩ := h.image ⟨pre, hsplit.symm⟩ hstays
  exact ⟨msg', hmsg'.subset mem_cons_self, hleft.own.trans hown⟩

theorem of_own (hown : ∃ msg ∈ pass f messages none, hasOwn num msg = true) :
    ∃ msg ∈ messages, hasOwn num msg = true := by
  obtain ⟨msg', hmsg', hown⟩ := hown
  obtain ⟨msg, hmsg, rest, hleft⟩ := h.origin hmsg'
  exact ⟨msg, hmsg, hleft.own.symm.trans hown⟩

end

end Thinning

/-! ## Calls that need no answer -/

/-- Two messages each of which calls without an id, or is the last one and calls. -/
def TwoCallers (messages : List (JsData N)) : Prop :=
  ∃ a rest, a :: rest <:+ messages ∧ hasFreeCall num a = true ∧
    ∃ b rest', b :: rest' <:+ rest ∧
      (hasFreeCall num b = true ∨ rest' = [] ∧ calledIds num b ≠ [])

namespace Thinning

variable {num} {f : JsData N → Option (JsData N) → List (JsData N)}
  {keeps : List (JsData N) → JsData N → Bool} {answers : JsData N → Bool}
  {messages : List (JsData N)}

theorem stays_of_free {msg : JsData N} (rest : List (JsData N))
    (h : hasFreeCall num msg = true) : stays num keeps answers msg rest = true := by
  rw [stays, h, Bool.or_true, Bool.true_or, Bool.true_or]

theorem stays_of_called {msg c : JsData N} {rest : List (JsData N)} (hc : c ∈ calledIds num msg)
    (hkeeps : keeps rest c = true) : stays num keeps answers msg rest = true := by
  rw [stays, List.any_eq_true.2 ⟨c, hc, hkeeps⟩, Bool.or_true]

theorem twoCallers (h : Thinning num f keeps answers messages) (htwo : TwoCallers num messages) :
    TwoCallers num (pass f messages none) := by
  obtain ⟨a, rest, ha, hfree, b, rest', hb, hcase⟩ := htwo
  obtain ⟨a', hleft, ha'⟩ := h.image ha (stays_of_free rest hfree)
  have hrest : rest <:+ messages := (suffix_cons a rest).trans ha
  have hthin := h.suffix hrest
  have hstays : stays num keeps answers b rest' = true := by
    rcases hcase with hfree' | ⟨rfl, hcalled⟩
    · exact stays_of_free rest' hfree'
    · obtain ⟨c, hc⟩ := exists_mem_of_ne_nil _ hcalled
      exact stays_of_called hc (h.last c)
  obtain ⟨b', hleft', hb'⟩ := hthin.image hb hstays
  refine ⟨a', _, ha', hleft.free.trans hfree, b', _, hb', ?_⟩
  rcases hcase with hfree' | ⟨rfl, hcalled⟩
  · exact .inl (hleft'.free.trans hfree')
  · refine .inr ⟨rfl, ?_⟩
    rwa [hleft'.called, filter_eq_self.2 fun c _ => h.last c]

end Thinning

/-! ## The pair fix -/

section Pairs

variable [DecidableEq N] (messages : List (JsData N))

/-- The messages without the calls that nothing answers. -/
def answeredCalls : List (JsData N) :=
  pass
    (fun msg next =>
      [if isRole msg "assistant" && next.isSome then filterCalls num (hasId (resultIds num messages)) msg
       else msg])
    messages none

/-- What the pair fix makes of a message. -/
def pairStep (msg : JsData N) (next : Option (JsData N)) : List (JsData N) :=
  (dropOrphans num (callIds num (answeredCalls num messages))
    (if isRole msg "assistant" && next.isSome then filterCalls num (hasId (resultIds num messages)) msg
      else msg)).toList

/-- A call stays when it is answered or in the last message. -/
def keepsAnswered (rest : List (JsData N)) (c : JsData N) : Bool :=
  rest.isEmpty || hasId (resultIds num messages) c

theorem fixToolPairs_eq :
    fixToolPairs num messages = pass (pairStep num messages) messages none := by
  show (answeredCalls num messages).filterMap _ = _
  rw [filterMap_eq_flatMap_toList, answeredCalls, flatMap_pass]
  refine pass_congr fun msg rest _ => ?_
  rw [flatMap_singleton]
  rfl

theorem left_answered (msg : JsData N) (rest : List (JsData N)) :
    Left num (keepsAnswered num messages rest) (fun _ => true) msg
      (if isRole msg "assistant" && rest.head?.isSome then
        filterCalls num (hasId (resultIds num messages)) msg else msg) := by
  cases hrole : isRole msg "assistant" with
  | false =>
    refine left_self num msg (fun c hc => ?_) fun _ _ => rfl
    rw [calledIds_of_not_assistant num hrole] at hc
    cases hc
  | true =>
    cases rest with
    | nil => exact left_self num msg (fun _ _ => rfl) fun _ _ => rfl
    | cons next rest =>
      exact left_filterCalls num (hasId (resultIds num messages)) hrole _

theorem mem_callIds_answeredCalls {c : JsData N} :
    c ∈ callIds num (answeredCalls num messages) ↔
      ∃ msg rest, msg :: rest <:+ messages ∧ c ∈ calledIds num msg ∧
        keepsAnswered num messages rest c = true := by
  unfold callIds answeredCalls
  rw [flatMap_pass]
  constructor
  · intro hc
    obtain ⟨msg, rest, hmsg, hc⟩ := mem_pass _ hc
    rw [or_none, flatMap_singleton, (left_answered num messages msg rest).called, mem_filter] at hc
    exact ⟨msg, rest, hmsg, hc⟩
  · rintro ⟨msg, rest, hmsg, hc⟩
    refine mem_pass_of _ hmsg ?_
    rw [or_none, flatMap_singleton, (left_answered num messages msg rest).called]
    exact mem_filter.2 hc

theorem hasId_iff {ids : List (JsData N)} {id : JsData N} :
    hasId ids id = true ↔ ∃ id' ∈ ids, sameValue id id' = true := List.any_eq_true

/-- A call of an id that is answered is not taken away. -/
theorem hasId_answeredCalls {r : JsData N} (hr : r ∈ resultIds num messages) :
    hasId (callIds num (answeredCalls num messages)) r = hasId (callIds num messages) r := by
  rw [Bool.eq_iff_iff, hasId_iff, hasId_iff]
  constructor
  · rintro ⟨c, hc, hsame⟩
    obtain ⟨msg, rest, hmsg, hc, -⟩ := (mem_callIds_answeredCalls num messages).1 hc
    exact ⟨c, mem_flatMap.2 ⟨msg, hmsg.subset mem_cons_self, hc⟩, hsame⟩
  · rintro ⟨c, hc, hsame⟩
    obtain ⟨msg, hmsg, hc⟩ := mem_flatMap.1 hc
    obtain ⟨pre, rest, hsplit⟩ := append_of_mem hmsg
    refine ⟨c, (mem_callIds_answeredCalls num messages).2 ⟨msg, rest, ⟨pre, hsplit.symm⟩, hc, ?_⟩,
      hsame⟩
    rw [keepsAnswered, hasId_iff.2 ⟨r, hr, (sameValue_comm c r).trans hsame⟩, Bool.or_true]

omit [DecidableEq N] in
theorem any_congr_mem {p q : JsData N → Bool} {l : List (JsData N)} (h : ∀ x ∈ l, p x = q x) :
    l.any p = l.any q := by
  rw [Bool.eq_iff_iff, List.any_eq_true, List.any_eq_true]
  exact exists_congr fun x => and_congr_right fun hx => by rw [h x hx]

omit [DecidableEq N] in
theorem not_isEmpty_filter (p : JsData N → Bool) (l : List (JsData N)) :
    (!(l.filter p).isEmpty) = l.any p := by
  rw [Bool.eq_iff_iff, Bool.not_eq_true', isEmpty_eq_false_iff, Ne, filter_eq_nil_iff,
    List.any_eq_true]
  push Not
  rfl

/-- The pair fix, message by message: what stays, and what is left of it. -/
theorem pairStep_spec {msg : JsData N} {rest : List (JsData N)} (h : msg :: rest <:+ messages) :
    if stays num (keepsAnswered num messages) (hasId (callIds num messages)) msg rest then
      ∃ msg', pairStep num messages msg rest.head? = [msg'] ∧
        Left num (keepsAnswered num messages rest) (hasId (callIds num messages)) msg msg'
    else pairStep num messages msg rest.head? = [] := by
  have hleft := left_answered num messages msg rest
  unfold pairStep
  generalize (if isRole msg "assistant" && rest.head?.isSome then
    filterCalls num (hasId (resultIds num messages)) msg else msg) = m at hleft ⊢
  have hanswered : answeredIds num m = answeredIds num msg := by
    rw [hleft.answered, filter_eq_self.2 fun _ _ => rfl]
  have hids : ∀ r ∈ answeredIds num msg,
      hasId (callIds num (answeredCalls num messages)) r = hasId (callIds num messages) r :=
    fun r hr => hasId_answeredCalls num messages
      (mem_flatMap.2 ⟨msg, h.subset mem_cons_self, hr⟩)
  have hsome : (dropOrphans num (callIds num (answeredCalls num messages)) m).isSome =
      stays num (keepsAnswered num messages) (hasId (callIds num messages)) msg rest := by
    rw [isSome_dropOrphans, hasCall, hleft.own, hleft.free, hleft.called, hanswered,
      any_congr_mem hids, not_isEmpty_filter, stays, ← Bool.or_assoc]
    congr 1
    exact Bool.or_right_comm _ _ _
  cases hdrop : dropOrphans num (callIds num (answeredCalls num messages)) m with
  | none =>
    rw [hdrop] at hsome
    rw [if_neg (by rw [← hsome]; exact Bool.false_ne_true)]
    rfl
  | some msg' =>
    rw [hdrop] at hsome
    rw [if_pos (by rw [← hsome]; rfl)]
    have hleft' := left_dropOrphans num _ hdrop
    refine ⟨msg', rfl, fun role => (hleft'.role role).trans (hleft.role role),
      hleft'.own.trans hleft.own, hleft'.free.trans hleft.free, ?_, ?_⟩
    · rw [hleft'.called, filter_eq_self.2 fun _ _ => rfl, hleft.called]
    · rw [hleft'.answered, hanswered]
      exact filter_congr hids

theorem thinning_fixToolPairs :
    Thinning num (pairStep num messages) (keepsAnswered num messages)
      (hasId (callIds num messages)) messages where
  step msg rest h := by
    have hspec := pairStep_spec num messages h
    split at hspec
    · exact .inr hspec
    · exact .inl hspec
  stay msg rest h hstays := by
    have hspec := pairStep_spec num messages h
    rw [if_pos hstays] at hspec
    obtain ⟨msg', hmsg', -⟩ := hspec
    rw [hmsg']
    exact cons_ne_nil _ _
  last _ := rfl

end Pairs

/-! ## Adjacency -/

section Adjacency

/-- A call stays when the next message answers its text or there is none. -/
def keepsAdjacent (rest : List (JsData N)) (c : JsData N) : Bool :=
  rest.head?.all fun next => hasText num ((answeredIds num next).map (toText num)) c

theorem adjacencyStep_other {msg : JsData N} {next : Option (JsData N)}
    (h : isRole msg "assistant" = false ∨ next = none) : adjacencyStep num msg next = [msg] := by
  rcases h with hrole | rfl
  · unfold adjacencyStep
    rw [hrole]
  · cases hrole : isRole msg "assistant" <;> simp [adjacencyStep, hrole]

theorem fixToolAdjacency_eq (messages : List (JsData N)) :
    fixToolAdjacency num messages = pass (adjacencyStep num) messages none := by
  unfold fixToolAdjacency
  split
  · next hshort =>
    match messages, hshort with
    | [], _ => rfl
    | [msg], _ => exact (congrArg (· ++ []) (adjacencyStep_other num (.inr rfl))).symm
  · rfl

/-- When the size is the same, no call was taken away. -/
theorem calledIds_filterCalls_of_size {ok : JsData N → Bool} {msg : JsData N}
    (h : isRole msg "assistant" = true) (hsize : size (filterCalls num ok msg) = size msg) :
    calledIds num (filterCalls num ok msg) = calledIds num msg := by
  have hcalls := length_filter_le (keepsCall num ok) (toolCalls msg)
  have hparts := length_filter_le (keepsUse num ok) (parts msg)
  unfold size at hsize
  rw [toolCalls_filterCalls, parts_filterCalls] at hsize
  have hcalls' : ((toolCalls msg).filter (keepsCall num ok)) = toolCalls msg :=
    filter_eq_self.2 (length_filter_eq_length_iff.1 (by omega))
  have hparts' : ((parts msg).filter (keepsUse num ok)) = parts msg :=
    filter_eq_self.2 (length_filter_eq_length_iff.1 (by omega))
  rw [calledIds, if_pos ((sameRole_filterCalls num ok msg _).trans h), toolCalls_filterCalls,
    parts_filterCalls, hcalls', hparts', calledIds, if_pos h]

theorem keepsAdjacent_of_head {rest : List (JsData N)} {next : JsData N}
    (h : rest.head? = some next) :
    keepsAdjacent num rest = hasText num ((answeredIds num next).map (toText num)) := by
  funext c
  rw [keepsAdjacent, h, all_some]

theorem thinning_fixToolAdjacency (messages : List (JsData N)) :
    Thinning num (adjacencyStep num) (keepsAdjacent num) (fun _ => true) messages where
  step msg rest _ := by
    by_cases h : isRole msg "assistant" = false ∨ rest.head? = none
    · rw [adjacencyStep_other num h]
      refine .inr ⟨msg, rfl, left_self num msg (fun c hc => ?_) fun _ _ => rfl⟩
      rcases h with hrole | hnone
      · rw [calledIds_of_not_assistant num hrole] at hc
        cases hc
      · rw [keepsAdjacent, hnone, all_none]
    · rw [not_or, Bool.not_eq_false] at h
      obtain ⟨hrole, hsome⟩ := h
      obtain ⟨next, hnext⟩ := ne_none_iff_exists'.1 hsome
      have hkeeps := keepsAdjacent_of_head num hnext
      have hleft := left_filterCalls num (hasText num ((answeredIds num next).map (toText num)))
        hrole (fun _ => true)
      rw [hkeeps]
      unfold adjacencyStep
      rw [hrole, hnext]
      dsimp only
      split
      · split
        · exact .inl rfl
        · exact .inr ⟨_, rfl, hleft⟩
      · next hsize =>
        have hcalled := calledIds_filterCalls_of_size num hrole (not_not.1 hsize)
        exact .inr ⟨msg, rfl, sameRole_self msg, rfl, rfl, hcalled.symm.trans hleft.called,
          (filter_eq_self.2 fun _ _ => rfl).symm⟩
  stay msg rest _ hstays := by
    by_cases h : isRole msg "assistant" = false ∨ rest.head? = none
    · rw [adjacencyStep_other num h]
      exact cons_ne_nil _ _
    · rw [not_or, Bool.not_eq_false] at h
      obtain ⟨hrole, hsome⟩ := h
      obtain ⟨next, hnext⟩ := ne_none_iff_exists'.1 hsome
      have hkeeps := keepsAdjacent_of_head num hnext
      have hleft := left_filterCalls num (hasText num ((answeredIds num next).map (toText num)))
        hrole (fun _ => true)
      have hsomething := hasContent_or_hasToolCalls num ((hleft.role _).trans hrole)
      rw [hasCall, hleft.own, hleft.free, hleft.called, not_isEmpty_filter, ← hkeeps] at hsomething
      rw [stays, answeredIds_of_assistant num hrole, any_nil, Bool.or_false,
        Bool.or_assoc, ← hsomething, hkeeps] at hstays
      unfold adjacencyStep
      rw [hrole, hnext]
      dsimp only
      split
      · rw [← Bool.not_or, hstays, Bool.not_true, if_neg Bool.false_ne_true]
        exact cons_ne_nil _ _
      · exact cons_ne_nil _ _
  last _ := rfl

end Adjacency

/-! ## The end of the list -/

section End

section

variable (msg : JsData N)

theorem withoutCalls_content :
    field (withoutCalls msg) "content" =
      match field msg "content" with
      | some (.arr content) => some (.arr (content.filter fun block => !isType block "tool_use"))
      | v => v := by
  unfold withoutCalls
  rewrite [field_filterField_self, field_filterField_ne _ _ (by decide)]
  rfl

theorem toolCalls_withoutCalls : toolCalls (withoutCalls msg) = [] := by
  unfold withoutCalls toolCalls
  rw [field_filterField_ne _ _ (by decide), elements_filterField]
  exact filter_eq_nil_iff.2 fun _ _ => Bool.false_ne_true

theorem parts_withoutCalls :
    parts (withoutCalls msg) = (parts msg).filter fun block => !isType block "tool_use" := by
  unfold withoutCalls parts
  rw [elements_filterField, field_filterField_ne _ _ (by decide)]

/-- Without its calls a message has its own content. -/
theorem hasContent_withoutCalls : hasContent (withoutCalls msg) = ownAssistant msg := by
  rw [hasContent, withoutCalls_content, ownAssistant]
  cases field msg "content" with
  | none => rfl
  | some v =>
    cases v with
    | arr content => exact not_isEmpty_filter _ content
    | _ => rfl

theorem hasToolCalls_withoutCalls : hasToolCalls (withoutCalls msg) = false := by
  rw [hasToolCalls, toolCalls_withoutCalls]
  rfl

theorem hasOwn_assistant {msg : JsData N} (h : isRole msg "assistant" = true) :
    hasOwn num msg = ownAssistant msg := by
  rw [hasOwn, role_eq h (by decide), role_eq h (by decide), h]
  rfl

/-- Only the last message can be stripped. -/
theorem stripTrailing_concat (init : List (JsData N)) (last : JsData N) :
    ∃ tail, stripTrailingAssistantOrphanToolUse (init ++ [last]) = init ++ tail := by
  unfold stripTrailingAssistantOrphanToolUse
  rw [getLast?_concat]
  dsimp only
  split
  · exact ⟨[last], rfl⟩
  · split
    · exact ⟨[last], rfl⟩
    · rw [dropLast_concat]
      exact ⟨_, rfl⟩

theorem stripTrailing_singleton (h : isRole msg "assistant" = false ∨
    hasOwn num msg = true) : stripTrailingAssistantOrphanToolUse [msg] ≠ [] := by
  unfold stripTrailingAssistantOrphanToolUse
  rw [getLast?_singleton]
  dsimp only
  split
  · exact cons_ne_nil _ _
  · next hrole =>
    rw [Bool.not_eq_true', Bool.not_eq_false] at hrole
    have hown := (hasOwn_assistant num hrole).symm.trans
      (h.resolve_left (by rw [hrole]; exact Bool.noConfusion))
    split
    · exact cons_ne_nil _ _
    · rw [hasContent_withoutCalls, hown, Bool.true_or, if_pos rfl]
      exact cons_ne_nil _ _

end

/-- Something is left unless a lone assistant message is made up of calls. -/
theorem stripTrailing_ne_nil {messages : List (JsData N)} (h : 2 ≤ messages.length ∨
    ∃ msg ∈ messages, isRole msg "assistant" = false ∨ hasOwn num msg = true) :
    stripTrailingAssistantOrphanToolUse messages ≠ [] := by
  rcases eq_nil_or_concat messages with rfl | ⟨init, last, rfl⟩
  · rcases h with hlen | ⟨msg, hmsg, -⟩
    · simp at hlen
    · cases hmsg
  · rw [concat_eq_append] at h ⊢
    cases init with
    | nil =>
      rcases h with hlen | ⟨msg, hmsg, hcase⟩
      · simp at hlen
      · obtain rfl := mem_singleton.1 hmsg
        exact stripTrailing_singleton num msg hcase
    | cons m init =>
      obtain ⟨tail, htail⟩ := stripTrailing_concat (m :: init) last
      rw [htail]
      exact nofun

theorem sameRole_withoutCalls (msg : JsData N) : SameRole msg (withoutCalls msg) := by
  intro role
  unfold withoutCalls isRole
  rw [field_filterField_ne _ _ (by decide), field_filterField_ne _ _ (by decide)]

theorem sameRole_stripTrailing {messages : List (JsData N)} {msg' : JsData N}
    (h : msg' ∈ stripTrailingAssistantOrphanToolUse messages) :
    ∃ msg ∈ messages, SameRole msg msg' := by
  unfold stripTrailingAssistantOrphanToolUse at h
  split at h
  · exact ⟨msg', h, sameRole_self msg'⟩
  · next last hlast =>
    split at h
    · exact ⟨msg', h, sameRole_self msg'⟩
    · dsimp only at h
      split at h
      · exact ⟨msg', h, sameRole_self msg'⟩
      · rcases mem_append.1 h with h | h
        · exact ⟨msg', (dropLast_sublist messages).subset h, sameRole_self msg'⟩
        · split at h
          · obtain rfl := mem_singleton.1 h
            exact ⟨last, mem_of_getLast? hlast, sameRole_withoutCalls last⟩
          · cases h

theorem stripTrailing_lone {msg : JsData N} (hown : hasOwn num msg = false)
    (hcall : hasCall num msg = true) : stripTrailingAssistantOrphanToolUse [msg] = [] := by
  have hrole := assistant_of_hasCall num hcall
  have hsize : size (withoutCalls msg) ≠ size msg := by
    have hparts := length_filter_le (fun block => !isType block "tool_use") (parts msg)
    rw [size, toolCalls_withoutCalls, parts_withoutCalls, size, length_nil]
    intro heq
    rcases (hasCall_iff num hrole).1 hcall with hcalls | ⟨block, hb, huse⟩
    · have hpos := length_pos_iff.2 hcalls
      omega
    · have hlen : ((parts msg).filter fun block => !isType block "tool_use").length =
          (parts msg).length := by omega
      have hall := length_filter_eq_length_iff.1 hlen block hb
      rw [huse] at hall
      cases hall
  unfold stripTrailingAssistantOrphanToolUse
  rw [getLast?_singleton]
  dsimp only
  rw [hrole, if_neg (by simp), if_neg hsize, hasContent_withoutCalls, hasToolCalls_withoutCalls,
    ← hasOwn_assistant num hrole, hown]
  rfl

end End

/-! ## What is left -/

section Repair

variable [DecidableEq N] (kept : List (JsData N))

/-- Of the messages behind a call, the first one that the pair fix leaves answers it, if there is
one. -/
def answeredNext (c : JsData N) : List (JsData N) → Bool
  | [] => true
  | msg :: rest =>
    if stays num (keepsAnswered num kept) (hasId (callIds num kept)) msg rest then
      (answeredIds num msg).any fun r =>
        hasId (callIds num kept) r && decide (toText num r = toText num c)
    else answeredNext c rest

/-- Why something is left of messages. -/
inductive Outlasts : Prop
  | own (msg : JsData N) (hmsg : msg ∈ kept) (hown : hasOwn num msg = true)
  | answered (a : JsData N) (rest : List (JsData N)) (c : JsData N) (ha : a :: rest <:+ kept)
    (hc : c ∈ calledIds num a) (hanswered : hasId (resultIds num kept) c = true)
    (hnext : answeredNext num kept c rest = true)
  | twoCallers (h : TwoCallers num kept)

/-- The messages after the pair fix, from some message on. -/
theorem keepsAdjacent_pass {rest : List (JsData N)} (h : rest <:+ kept) (c : JsData N) :
    keepsAdjacent num (pass (pairStep num kept) rest none) c =
      answeredNext num kept c rest := by
  induction rest with
  | nil => rfl
  | cons msg rest ih =>
    have hspec := pairStep_spec num kept h
    rw [answeredNext, pass_cons, or_none]
    split at hspec
    · next hstays =>
      obtain ⟨msg', hmsg', hleft⟩ := hspec
      rw [if_pos hstays, hmsg', keepsAdjacent]
      show ((answeredIds num msg').map (toText num)).contains (toText num c) = _
      rw [hleft.answered, Bool.eq_iff_iff, contains_iff_mem, List.mem_map, List.any_eq_true]
      constructor
      · rintro ⟨r, hr, htext⟩
        obtain ⟨hr, hcalled⟩ := mem_filter.1 hr
        exact ⟨r, hr, by rw [hcalled, htext, Bool.true_and, decide_eq_true rfl]⟩
      · rintro ⟨r, hr, hboth⟩
        obtain ⟨hcalled, htext⟩ := Bool.and_eq_true_iff.1 hboth
        exact ⟨r, mem_filter.2 ⟨hr, hcalled⟩, of_decide_eq_true htext⟩
    · next hstays =>
      rw [if_neg hstays, hspec]
      exact ih ((suffix_cons msg rest).trans h)

variable {msg : JsData N}

omit [DecidableEq N] in
/-- A message without own content that is not the assistant's answers something. -/
theorem answeredIds_ne_nil (hown : hasOwn num msg = false)
    (hrole : isRole msg "assistant" = false) : answeredIds num msg ≠ [] := by
  cases htool : isRole msg "tool" with
  | true =>
    rw [hasOwn, if_pos htool, ownTool] at hown
    rw [answeredIds, if_pos htool]
    intro hnil
    rw [toList_eq_nil_iff.1 hnil] at hown
    cases hown
  | false =>
    cases huser : isRole msg "user" with
    | true =>
      rw [hasOwn_user num huser, ownUser] at hown
      rw [answeredIds_user num huser, parts]
      cases hcontent : elements (field msg "content") with
      | none =>
        rw [hcontent] at hown
        cases hown
      | some content =>
        rw [hcontent, all_some, Bool.or_eq_false_iff, isEmpty_eq_false_iff,
          List.any_eq_false] at hown
        obtain ⟨block, hb⟩ := exists_mem_of_ne_nil _ hown.1
        intro hnil
        exact hown.2 block hb (isNone_iff_eq_none.2 (filterMap_eq_nil_iff.1 hnil block hb))
    | false =>
      rw [hasOwn, htool, huser, hrole] at hown
      cases hown

theorem hasCall_of_mem_fixToolPairs {messages : List (JsData N)}
    (hmsg : msg ∈ fixToolPairs num messages) (hown : hasOwn num msg = false)
    (hrole : isRole msg "assistant" = true) : hasCall num msg = true := by
  rw [fixToolPairs_eq] at hmsg
  obtain ⟨a, rest, ha, hmsg⟩ := mem_pass _ hmsg
  have hspec := pairStep_spec num messages ha
  rw [or_none] at hmsg
  split at hspec
  · next hstays =>
    obtain ⟨msg', heq, hleft⟩ := hspec
    rw [heq] at hmsg
    obtain rfl := mem_singleton.1 hmsg
    have hanswered := hleft.answered
    rw [answeredIds_of_assistant num hrole] at hanswered
    have hnone : (answeredIds num a).any (hasId (callIds num messages)) = false := by
      rw [← not_isEmpty_filter, ← hanswered]
      rfl
    rw [stays, ← hleft.own, hown, ← hleft.free, hnone, Bool.false_or, Bool.or_false,
      ← not_isEmpty_filter, ← hleft.called] at hstays
    exact hstays
  · rw [hspec] at hmsg
    cases hmsg

/-- A call that is answered when the last pair fix begins was answered by the next message. -/
theorem outlasts_of_answered {a c : JsData N} {rest : List (JsData N)}
    (ha : a :: rest <:+ fixToolAdjacency num (fixToolPairs num kept)) (hc : c ∈ calledIds num a)
    (hanswered : hasId (resultIds num (fixToolAdjacency num (fixToolPairs num kept))) c = true) :
    Outlasts num kept := by
  have hpairs := thinning_fixToolPairs num kept
  have hadjacent := thinning_fixToolAdjacency num (fixToolPairs num kept)
  rw [fixToolAdjacency_eq] at ha hanswered
  obtain ⟨a₁, s₁, ha₁, hleft₁, -⟩ := hadjacent.source ha
  rw [hleft₁.called, mem_filter] at hc
  obtain ⟨hc, hkeeps⟩ := hc
  obtain ⟨r, hr, hsame⟩ := hasId_iff.1 hanswered
  have hr₁ := (hadjacent.mem_resultIds_iff.1 hr).1
  rw [fixToolPairs_eq] at ha₁ hr₁
  obtain ⟨a₀, s₀, ha₀, hleft₀, rfl⟩ := hpairs.source ha₁
  rw [hleft₀.called, mem_filter] at hc
  rw [keepsAdjacent_pass num kept ((suffix_cons a₀ s₀).trans ha₀)] at hkeeps
  exact .answered a₀ s₀ c ha₀ hc.1
    (hasId_iff.2 ⟨r, (hpairs.mem_resultIds_iff.1 hr₁).1, hsame⟩) hkeeps

/-- A result that the last pair fix leaves answers a call of the message before it. -/
theorem outlasts_of_result
    (hmsg : msg ∈ fixToolPairs num (fixToolAdjacency num (fixToolPairs num kept)))
    (hanswers : answeredIds num msg ≠ []) : Outlasts num kept := by
  obtain ⟨r, hr⟩ := exists_mem_of_ne_nil _ hanswers
  have hr := mem_flatMap.2 ⟨msg, hmsg, hr⟩
  rw [fixToolPairs_eq] at hr
  obtain ⟨hr, hcalled⟩ := (thinning_fixToolPairs num _).mem_resultIds_iff.1 hr
  obtain ⟨c, hc, hsame⟩ := hasId_iff.1 hcalled
  obtain ⟨a, ha, hc⟩ := mem_flatMap.1 hc
  obtain ⟨pre, rest, hsplit⟩ := append_of_mem ha
  exact outlasts_of_answered num kept ⟨pre, hsplit.symm⟩ hc
    (hasId_iff.2 ⟨r, hr, (sameValue_comm c r).trans hsame⟩)

omit [DecidableEq N] in
/-- The adjacency pass never drops the last message. -/
theorem pass_adjacencyStep_eq_nil {l : List (JsData N)}
    (h : pass (adjacencyStep num) l none = []) : l = [] := by
  rcases eq_nil_or_concat l with rfl | ⟨init, last, rfl⟩
  · rfl
  · rw [concat_eq_append, pass_append, append_eq_nil_iff, pass_cons,
      adjacencyStep_other num (.inr (by rfl))] at h
    exact absurd h.2 nofun

/-- Messages that are left without own content and results are calls that need no answer. -/
theorem outlasts_of_calls {a b : JsData N} {s : List (JsData N)}
    (h : fixToolPairs num (fixToolAdjacency num (fixToolPairs num kept)) = a :: b :: s)
    (ha : hasCall num a = true) (hb : hasCall num b = true) : Outlasts num kept := by
  by_contra hno
  set adjacent := fixToolAdjacency num (fixToolPairs num kept) with hadj
  have hpairs := thinning_fixToolPairs num kept
  have hadjacent := thinning_fixToolAdjacency num (fixToolPairs num kept)
  have hpairs' := thinning_fixToolPairs num adjacent
  -- a call that the last pair fix keeps has no id, or is in the last message
  have hkept : ∀ {msg msg' : JsData N} {rest : List (JsData N)},
      msg :: rest <:+ adjacent →
      Left num (keepsAnswered num adjacent rest)
        (hasId (callIds num adjacent)) msg msg' →
      hasCall num msg' = true →
      hasFreeCall num msg = true ∨ rest = [] ∧ calledIds num msg ≠ [] := by
    intro msg msg' rest hmsg hleft hcall
    rw [hasCall, Bool.or_eq_true, hleft.free, hleft.called, not_isEmpty_filter,
      List.any_eq_true] at hcall
    rcases hcall with hfree | ⟨c, hc, hkeeps⟩
    · exact .inl hfree
    · rw [keepsAnswered, Bool.or_eq_true, List.isEmpty_iff] at hkeeps
      rcases hkeeps with rfl | hanswered
      · exact .inr ⟨rfl, ne_nil_of_mem hc⟩
      · exact absurd (outlasts_of_answered num kept hmsg hc hanswered) hno
  rw [fixToolPairs_eq] at h
  have ha₃ : a :: b :: s <:+ pass
      (pairStep num adjacent)
      adjacent none := h ▸ suffix_refl _
  obtain ⟨a₂, s₂, ha₂, hlefta₂, hs₂⟩ := hpairs'.source ha₃
  have hb₃ : b :: s <:+ pass
      (pairStep num adjacent) s₂ none :=
    hs₂ ▸ suffix_refl _
  obtain ⟨b₂, t₂, hb₂, hleftb₂, -⟩ :=
    (hpairs'.suffix ((suffix_cons a₂ s₂).trans ha₂)).source hb₃
  have hfreea : hasFreeCall num a₂ = true := by
    refine (hkept ha₂ hlefta₂ ha).resolve_right fun hnil => ?_
    rw [hnil.1] at hs₂
    cases hs₂
  have hcaseb := hkept (hb₂.trans ((suffix_cons a₂ s₂).trans ha₂)) hleftb₂ hb
  rw [hadj, fixToolAdjacency_eq] at ha₂
  obtain ⟨a₁, s₁, ha₁, hlefta₁, rfl⟩ := hadjacent.source ha₂
  obtain ⟨b₁, t₁, hb₁, hleftb₁, rfl⟩ :=
    (hadjacent.suffix ((suffix_cons a₁ s₁).trans ha₁)).source hb₂
  rw [fixToolPairs_eq] at ha₁
  obtain ⟨a₀, s₀, ha₀, hlefta₀, rfl⟩ := hpairs.source ha₁
  have hs₀ := (suffix_cons a₀ s₀).trans ha₀
  obtain ⟨b₀, t₀, hb₀, hleftb₀, rfl⟩ := (hpairs.suffix hs₀).source hb₁
  refine hno (.twoCallers ⟨a₀, s₀, ha₀, ?_, b₀, t₀, hb₀, ?_⟩)
  · rw [← hlefta₀.free, ← hlefta₁.free, hfreea]
  · rcases hcaseb with hfree | ⟨hnil, hcalled⟩
    · exact .inl (by rw [← hleftb₀.free, ← hleftb₁.free, hfree])
    · obtain ⟨c, hc⟩ := exists_mem_of_ne_nil _ hcalled
      rw [hleftb₁.called, mem_filter, hleftb₀.called, mem_filter] at hc
      obtain ⟨⟨hc, hkeeps⟩, -⟩ := hc
      rw [keepsAnswered, Bool.or_eq_true, List.isEmpty_iff] at hkeeps
      refine .inr ⟨hkeeps.resolve_right fun hanswered => ?_, ne_nil_of_mem hc⟩
      have ht₀ := (suffix_cons b₀ t₀).trans (hb₀.trans hs₀)
      refine hno (.answered b₀ t₀ c (hb₀.trans hs₀) hc hanswered ?_)
      rw [← keepsAdjacent_pass num kept ht₀, pass_adjacencyStep_eq_nil num hnil]
      rfl

theorem outlasts_of_repair_ne_nil (h : repair num kept ≠ []) : Outlasts num kept := by
  by_contra hno
  have hown : ∀ msg ∈ fixToolPairs num (fixToolAdjacency num (fixToolPairs num kept)),
      hasOwn num msg = false := by
    intro msg hmsg
    rw [← Bool.not_eq_true]
    intro htrue
    have htrace := (⟨msg, hmsg, htrue⟩ : ∃ msg ∈ _, hasOwn num msg = true)
    rw [fixToolPairs_eq] at htrace
    have htrace := (thinning_fixToolPairs num _).of_own htrace
    rw [fixToolAdjacency_eq] at htrace
    have htrace := (thinning_fixToolAdjacency num _).of_own htrace
    rw [fixToolPairs_eq] at htrace
    obtain ⟨m, hm, hm'⟩ := (thinning_fixToolPairs num _).of_own htrace
    exact hno (.own m hm hm')
  have hcall : ∀ msg ∈ fixToolPairs num (fixToolAdjacency num (fixToolPairs num kept)),
      hasCall num msg = true := by
    intro msg hmsg
    cases hrole : isRole msg "assistant" with
    | true => exact hasCall_of_mem_fixToolPairs num hmsg (hown msg hmsg) hrole
    | false =>
      exact absurd (outlasts_of_result num kept hmsg (answeredIds_ne_nil num (hown msg hmsg) hrole))
        hno
  unfold repair at h
  cases hl : fixToolPairs num (fixToolAdjacency num (fixToolPairs num kept)) with
  | nil =>
    rw [hl] at h
    exact h rfl
  | cons a s =>
    cases s with
    | nil =>
      rw [hl] at h hown hcall
      exact h (stripTrailing_lone num (hown a mem_cons_self) (hcall a mem_cons_self))
    | cons b s =>
      refine hno (outlasts_of_calls num kept hl (hcall a ?_) (hcall b ?_))
      · rw [hl]
        exact mem_cons_self
      · rw [hl]
        exact .tail _ mem_cons_self

theorem repair_ne_nil_of_outlasts (h : Outlasts num kept) : repair num kept ≠ [] := by
  have hpairs := thinning_fixToolPairs num kept
  have hadjacent := thinning_fixToolAdjacency num (fixToolPairs num kept)
  have hpairs' := thinning_fixToolPairs num (fixToolAdjacency num (fixToolPairs num kept))
  unfold repair
  refine stripTrailing_ne_nil num ?_
  cases h with
  | own msg hmsg hown =>
    have hfirst := hpairs.own ⟨msg, hmsg, hown⟩
    rw [← fixToolPairs_eq] at hfirst
    have hsecond := hadjacent.own hfirst
    rw [← fixToolAdjacency_eq] at hsecond
    obtain ⟨m, hm, hm'⟩ := hpairs'.own hsecond
    rw [← fixToolPairs_eq] at hm
    exact .inr ⟨m, hm, .inr hm'⟩
  | answered a rest c ha hc hanswered hnext =>
    obtain ⟨r, hr, hsame⟩ := hasId_iff.1 hanswered
    have hcr := (sameValue_comm r c).trans hsame
    have hcalled : hasId (callIds num kept) r = true :=
      hasId_iff.2 ⟨c, mem_flatMap.2 ⟨a, ha.subset mem_cons_self, hc⟩, hcr⟩
    -- the result stays, and so does the call that it answers
    have hr₁ := hpairs.mem_resultIds_iff.2 ⟨hr, hcalled⟩
    have hkeeps : keepsAnswered num kept rest c = true := by
      rw [keepsAnswered, hanswered, Bool.or_true]
    obtain ⟨a₁, hleft₁, ha₁⟩ := hpairs.image ha (Thinning.stays_of_called hc hkeeps)
    have hc₁ : c ∈ calledIds num a₁ := by
      rw [hleft₁.called]
      exact mem_filter.2 ⟨hc, hkeeps⟩
    rw [← keepsAdjacent_pass num kept ((suffix_cons a rest).trans ha)] at hnext
    rw [← fixToolPairs_eq] at ha₁ hr₁
    have hr₂ := hadjacent.mem_resultIds_iff.2 ⟨hr₁, rfl⟩
    obtain ⟨a₂, hleft₂, ha₂⟩ := hadjacent.image ha₁ (Thinning.stays_of_called hc₁ hnext)
    have hc₂ : c ∈ calledIds num a₂ := by
      rw [hleft₂.called]
      exact mem_filter.2 ⟨hc₁, hnext⟩
    rw [← fixToolAdjacency_eq num (fixToolPairs num kept)] at ha₂ hr₂
    have hr₃ := hpairs'.mem_resultIds_iff.2 ⟨hr₂, hasId_iff.2
      ⟨c, mem_flatMap.2 ⟨a₂, ha₂.subset mem_cons_self, hc₂⟩, hcr⟩⟩
    rw [← fixToolPairs_eq] at hr₃
    obtain ⟨msg, hmsg, hr₃⟩ := mem_flatMap.1 hr₃
    refine .inr ⟨msg, hmsg, .inl ?_⟩
    by_contra hrole
    rw [answeredIds_of_assistant num (Bool.eq_true_of_not_eq_false hrole)] at hr₃
    cases hr₃
  | twoCallers h =>
    have hfirst := hpairs.twoCallers h
    rw [← fixToolPairs_eq] at hfirst
    have hsecond := hadjacent.twoCallers hfirst
    rw [← fixToolAdjacency_eq] at hsecond
    obtain ⟨a, rest, ha, -, b, rest', hb, -⟩ := hpairs'.twoCallers hsecond
    rw [← fixToolPairs_eq] at ha
    have hlen := ha.length_le
    have hlen' := hb.length_le
    rw [length_cons] at hlen hlen'
    exact .inl (by omega)

theorem repair_ne_nil_iff : repair num kept ≠ [] ↔ Outlasts num kept :=
  ⟨outlasts_of_repair_ne_nil num kept, repair_ne_nil_of_outlasts num kept⟩

/-- The repair changes no roles. -/
theorem sameRole_repair {msg' : JsData N} (h : msg' ∈ repair num kept) :
    ∃ msg ∈ kept, SameRole msg msg' := by
  unfold repair at h
  obtain ⟨m₃, h₃, hrole₃⟩ := sameRole_stripTrailing h
  rw [fixToolPairs_eq] at h₃
  obtain ⟨m₂, h₂, hrole₂⟩ := (thinning_fixToolPairs num _).sameRole h₃
  rw [fixToolAdjacency_eq] at h₂
  obtain ⟨m₁, h₁, hrole₁⟩ := (thinning_fixToolAdjacency num _).sameRole h₂
  rw [fixToolPairs_eq] at h₁
  obtain ⟨m₀, h₀, hrole₀⟩ := (thinning_fixToolPairs num _).sameRole h₁
  exact ⟨m₀, h₀, fun role => (hrole₃ role).trans
    ((hrole₂ role).trans ((hrole₁ role).trans (hrole₀ role)))⟩

/-! ## System messages -/

omit [DecidableEq N] in
theorem role_of_isSystem (h : isSystem msg = true) :
    isRole msg "tool" = false ∧ isRole msg "user" = false ∧ isRole msg "assistant" = false := by
  rw [isSystem, Bool.or_eq_true] at h
  rcases h with h | h
  · exact ⟨role_eq h (by decide), role_eq h (by decide), role_eq h (by decide)⟩
  · exact ⟨role_eq h (by decide), role_eq h (by decide), role_eq h (by decide)⟩

omit [DecidableEq N] in
theorem answeredIds_of_isSystem (h : isSystem msg = true) : answeredIds num msg = [] := by
  obtain ⟨htool, huser, -⟩ := role_of_isSystem h
  rw [answeredIds, htool, huser]
  rfl

variable {system : List (JsData N)} (hsystem : ∀ msg ∈ system, isSystem msg = true)

include hsystem

theorem fixToolPairs_append_system :
    fixToolPairs num (system ++ kept) = system ++ fixToolPairs num kept := by
  have hresults : resultIds num (system ++ kept) = resultIds num kept := by
    rw [resultIds, flatMap_append, flatMap_eq_nil_iff.2 fun msg hmsg =>
      answeredIds_of_isSystem num (hsystem msg hmsg)]
    rfl
  have hself : ∀ z, pass
      (fun msg next =>
        [if isRole msg "assistant" && next.isSome then
          filterCalls num (hasId (resultIds num kept)) msg else msg]) system z = system := by
    intro z
    refine pass_eq_self fun msg rest hmsg => ?_
    rw [(role_of_isSystem (hsystem msg (hmsg.subset mem_cons_self))).2.2]
    rfl
  have hanswered : answeredCalls num (system ++ kept) = system ++ answeredCalls num kept := by
    rw [answeredCalls, hresults, pass_append, hself]
    rfl
  have hcalls : callIds num (system ++ answeredCalls num kept) =
      callIds num (answeredCalls num kept) := by
    rw [callIds, flatMap_append, flatMap_eq_nil_iff.2 fun msg hmsg =>
      calledIds_of_not_assistant num (role_of_isSystem (hsystem msg hmsg)).2.2]
    rfl
  show (answeredCalls num (system ++ kept)).filterMap
    (dropOrphans num (callIds num (answeredCalls num (system ++ kept)))) = _
  rw [hanswered, hcalls, filterMap_append]
  congr 1
  refine (filterMap_congr fun msg hmsg => ?_).trans (filterMap_some (l := system))
  obtain ⟨htool, huser, hassistant⟩ := role_of_isSystem (hsystem msg hmsg)
  exact dropOrphans_other num _ htool huser hassistant

omit [DecidableEq N] in
theorem fixToolAdjacency_append_system :
    fixToolAdjacency num (system ++ kept) = system ++ fixToolAdjacency num kept := by
  rw [fixToolAdjacency_eq, fixToolAdjacency_eq, pass_append]
  congr 1
  refine pass_eq_self fun msg rest hmsg => ?_
  exact adjacencyStep_other num
    (.inl (role_of_isSystem (hsystem msg (hmsg.subset mem_cons_self))).2.2)

omit [DecidableEq N] in
theorem stripTrailing_append_system :
    stripTrailingAssistantOrphanToolUse (system ++ kept) =
      system ++ stripTrailingAssistantOrphanToolUse kept := by
  rcases eq_nil_or_concat kept with rfl | ⟨init, last, rfl⟩
  · rcases eq_nil_or_concat system with rfl | ⟨init, last, rfl⟩
    · rfl
    · have hlast := hsystem last (by simp)
      unfold stripTrailingAssistantOrphanToolUse
      rw [append_nil, concat_eq_append, getLast?_concat]
      dsimp only
      rw [(role_of_isSystem hlast).2.2]
      simp
  · rw [concat_eq_append, ← append_assoc]
    unfold stripTrailingAssistantOrphanToolUse
    rw [getLast?_concat, getLast?_concat]
    dsimp only
    rw [dropLast_concat, dropLast_concat]
    split
    · exact append_assoc _ _ _
    · split
      · exact append_assoc _ _ _
      · exact append_assoc _ _ _

/-- The repair leaves the system messages in front as they are. -/
theorem repair_append_system : repair num (system ++ kept) = system ++ repair num kept := by
  unfold repair
  rw [fixToolPairs_append_system num kept hsystem,
    fixToolAdjacency_append_system num _ hsystem, fixToolPairs_append_system num _ hsystem,
    stripTrailing_append_system _ hsystem]

end Repair

end OmniRoute.ContextManager
