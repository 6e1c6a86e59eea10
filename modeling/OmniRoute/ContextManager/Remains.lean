import OmniRoute.ContextManager.Repair

/-!
# What is left of a message

The passes of the repair message by message. A message has something of its own when neither a call
nor a result with an id makes it up; the passes never touch that. Of the rest they keep the ids
that pass a test (`Left`).

**Main results (`left_filterCalls`, `dropOrphans_eq_some`, `isSome_dropOrphans`).** What a filter
leaves of a message, and when it leaves anything.
-/

namespace OmniRoute.ContextManager

open JsData List Option CodeUnits

variable {N : Type} (num : JsNumbers N)

/-! ## Own content and calls -/

def ownTool (msg : JsData N) : Bool := (idOf num msg "tool_call_id").isNone

/-- A part that answers no id. -/
def ownUser (msg : JsData N) : Bool :=
  (elements (field msg "content")).all fun content =>
    content.isEmpty || content.any fun block => (resultId num block).isNone

/-- A text that is not blank, or a part that is no call. -/
def ownAssistant (msg : JsData N) : Bool :=
  match field msg "content" with
  | some (.str s) => decide (0 < (trim s).length)
  | some (.arr content) => content.any fun block => !isType block "tool_use"
  | _ => false

/-- Something that is neither a call nor a result with an id. -/
def hasOwn (msg : JsData N) : Bool :=
  if isRole msg "tool" then ownTool num msg
  else if isRole msg "user" then ownUser num msg
  else if isRole msg "assistant" then ownAssistant msg
  else true

/-- A call without an id. -/
def hasFreeCall (msg : JsData N) : Bool :=
  isRole msg "assistant" &&
    ((toolCalls msg).any (fun tc => (idOf num tc "id").isNone) ||
      (parts msg).any fun block => isType block "tool_use" && (idOf num block "id").isNone)

/-- An assistant message that calls something. -/
def hasCall (msg : JsData N) : Bool := hasFreeCall num msg || !(calledIds num msg).isEmpty

/-- What a filter that keeps some of the ids leaves of a message. -/
structure Left (called answered : JsData N → Bool) (msg msg' : JsData N) : Prop where
  role : SameRole msg msg'
  own : hasOwn num msg' = hasOwn num msg
  free : hasFreeCall num msg' = hasFreeCall num msg
  called : calledIds num msg' = (calledIds num msg).filter called
  answered : answeredIds num msg' = (answeredIds num msg).filter answered

variable {msg : JsData N}

theorem role_eq {role role' : String} (h : isRole msg role = true)
    (hne : ofString role ≠ ofString role') : isRole msg role' = false := by
  rw [isRole, isText_iff] at h
  rw [isRole, h, isText, decide_eq_false_iff_not]
  exact hne

theorem assistant_of_mem_calledIds {c : JsData N} (h : c ∈ calledIds num msg) :
    isRole msg "assistant" = true := by
  by_contra hrole
  rw [calledIds, if_neg hrole] at h
  cases h

theorem assistant_of_hasCall (h : hasCall num msg = true) : isRole msg "assistant" = true := by
  rw [hasCall, Bool.or_eq_true] at h
  rcases h with hfree | hcalled
  · exact (Bool.and_eq_true_iff.1 hfree).1
  · cases hids : calledIds num msg with
    | nil => exact absurd hcalled (by simp [hids])
    | cons c ids => exact assistant_of_mem_calledIds num (hids ▸ mem_cons_self)

theorem answeredIds_of_assistant (h : isRole msg "assistant" = true) :
    answeredIds num msg = [] := by
  rw [answeredIds, role_eq h (by decide), role_eq h (by decide)]
  rfl

theorem hasFreeCall_of_not_assistant (h : isRole msg "assistant" = false) :
    hasFreeCall num msg = false := by
  rw [hasFreeCall, h, Bool.false_and]

theorem calledIds_of_not_assistant (h : isRole msg "assistant" = false) :
    calledIds num msg = [] := by
  rw [calledIds, h]
  rfl

theorem left_self (msg : JsData N) {called answered : JsData N → Bool}
    (hcalled : ∀ c ∈ calledIds num msg, called c = true)
    (hanswered : ∀ r ∈ answeredIds num msg, answered r = true) :
    Left num called answered msg msg where
  role := sameRole_self msg
  own := rfl
  free := rfl
  called := (filter_eq_self.2 hcalled).symm
  answered := (filter_eq_self.2 hanswered).symm

/-! ## Filters -/

theorem filterMap_filter_all {α β : Type*} (g : α → Option β) (ok : β → Bool) (l : List α) :
    (l.filter fun x => (g x).all ok).filterMap g = (l.filterMap g).filter ok := by
  induction l with
  | nil => rfl
  | cons x l ih =>
    cases hx : g x with
    | none => simp [hx, ih]
    | some y => by_cases hy : ok y = true <;> simp [hx, hy, ih]

variable (ok : JsData N → Bool)

theorem keepsUse_eq (block : JsData N) : keepsUse num ok block = (useId num block).all ok := by
  unfold keepsUse useId
  cases isType block "tool_use" <;> rfl

theorem keepsResult_eq (block : JsData N) :
    keepsResult num ok block = (resultId num block).all ok := by
  unfold keepsResult resultId
  cases isType block "tool_result" <;> rfl

theorem field_filterField_ne (p : JsData N → Bool) (msg : JsData N) {name name' : String}
    (h : ofString name' ≠ ofString name) :
    field (filterField name p msg) name' = field msg name' := by
  unfold filterField
  split
  · exact field_withField_ne _ _ h
  · rfl

theorem field_filterField_self (name : String) (p : JsData N → Bool) (msg : JsData N) :
    field (filterField name p msg) name =
      match field msg name with
      | some (.arr items) => some (.arr (items.filter p))
      | v => v := by
  unfold filterField
  cases hv : field msg name with
  | none => exact hv
  | some v =>
    cases v with
    | arr items => exact field_withField_self hv
    | _ => exact hv

theorem elements_filterField (name : String) (p : JsData N → Bool) (msg : JsData N) :
    (elements (field (filterField name p msg) name)).getD [] =
      ((elements (field msg name)).getD []).filter p := by
  rw [field_filterField_self]
  cases field msg name with
  | none => rfl
  | some v => cases v <;> rfl

theorem field_filterCalls (msg : JsData N) :
    field (filterCalls num ok msg) "content" =
      match field msg "content" with
      | some (.arr content) => some (.arr (content.filter (keepsUse num ok)))
      | v => v := by
  unfold filterCalls
  rw [field_filterField_self, field_filterField_ne _ _ (by decide)]

theorem parts_filterCalls (msg : JsData N) :
    parts (filterCalls num ok msg) = (parts msg).filter (keepsUse num ok) := by
  unfold filterCalls parts
  rw [elements_filterField, field_filterField_ne _ _ (by decide)]

theorem toolCalls_filterCalls (msg : JsData N) :
    toolCalls (filterCalls num ok msg) = (toolCalls msg).filter (keepsCall num ok) := by
  unfold filterCalls toolCalls
  rw [field_filterField_ne _ _ (by decide), elements_filterField]

theorem sameRole_filterCalls (msg : JsData N) : SameRole msg (filterCalls num ok msg) := by
  intro role
  unfold filterCalls isRole
  rw [field_filterField_ne _ _ (by decide), field_filterField_ne _ _ (by decide)]

theorem any_filter_of_imp {α : Type*} {p q : α → Bool} (h : ∀ x, p x = true → q x = true)
    (l : List α) : (l.filter q).any p = l.any p := by
  induction l with
  | nil => rfl
  | cons x l ih =>
    by_cases hq : q x = true
    · simp [hq, ih]
    · have hp : p x = false := Bool.eq_false_iff.2 fun hp => hq (h x hp)
      simp [hq, hp, ih]

section

variable (h : isRole msg "assistant" = true)
include h

theorem left_filterCalls
    (answered : JsData N → Bool) :
    Left num ok answered msg (filterCalls num ok msg) where
  role := sameRole_filterCalls num ok msg
  own := by
    have hrole := sameRole_filterCalls num ok msg
    unfold hasOwn ownAssistant
    rw [hrole, hrole, hrole, role_eq h (by decide), role_eq h (by decide), h, field_filterCalls]
    cases field msg "content" with
    | none => rfl
    | some v =>
      cases v with
      | arr content =>
        refine any_filter_of_imp (fun block hb => ?_) content
        rw [keepsUse, hb, Bool.true_or]
      | _ => rfl
  free := by
    unfold hasFreeCall
    rw [sameRole_filterCalls num ok msg, toolCalls_filterCalls, parts_filterCalls]
    congr 2
    · refine any_filter_of_imp (fun tc htc => ?_) _
      rw [keepsCall, isNone_iff_eq_none.1 htc]
      rfl
    · refine any_filter_of_imp (fun block hb => ?_) _
      rw [keepsUse, isNone_iff_eq_none.1 (Bool.and_eq_true_iff.1 hb).2]
      exact Bool.or_true _
  called := by
    unfold calledIds
    rw [sameRole_filterCalls num ok msg, if_pos h, if_pos h, toolCalls_filterCalls,
      parts_filterCalls, filter_append]
    congr 1
    · exact filterMap_filter_all (fun tc => idOf num tc "id") ok _
    · rw [← filterMap_filter_all, funext (keepsUse_eq num ok)]
  answered := by
    rw [answeredIds_of_assistant num h,
      answeredIds_of_assistant num ((sameRole_filterCalls num ok msg _).trans h)]
    rfl

/-! ## Orphans -/

theorem hasCall_iff :
    hasCall num msg = true ↔
      toolCalls msg ≠ [] ∨ ∃ block ∈ parts msg, isType block "tool_use" = true := by
  rw [hasCall, Bool.or_eq_true, hasFreeCall, h, Bool.true_and, Bool.or_eq_true, calledIds, if_pos h,
    Bool.not_eq_true', isEmpty_eq_false_iff, Ne, append_eq_nil_iff, not_and_or,
    filterMap_eq_nil_iff, filterMap_eq_nil_iff, List.any_eq_true, List.any_eq_true]
  push Not
  constructor
  · rintro ((⟨tc, htc, -⟩ | ⟨block, hb, huse⟩) | ⟨tc, htc, -⟩ | ⟨block, hb, huse⟩)
    · exact .inl (ne_nil_of_mem htc)
    · exact .inr ⟨block, hb, (Bool.and_eq_true_iff.1 huse).1⟩
    · exact .inl (ne_nil_of_mem htc)
    · refine .inr ⟨block, hb, ?_⟩
      by_contra hno
      exact huse (by rw [useId, if_neg hno])
  · rintro (hcalls | ⟨block, hb, huse⟩)
    · obtain ⟨tc, htc⟩ := exists_mem_of_ne_nil _ hcalls
      cases hid : idOf num tc "id" with
      | none => exact .inl (.inl ⟨tc, htc, by rw [hid]; rfl⟩)
      | some c => exact .inr (.inl ⟨tc, htc, by rw [hid]; exact nofun⟩)
    · cases hid : idOf num block "id" with
      | none => exact .inl (.inr ⟨block, hb, by rw [huse, hid]; rfl⟩)
      | some c => exact .inr (.inr ⟨block, hb, by rw [useId, if_pos huse, hid]; exact nofun⟩)

/-- An assistant message has something exactly when it has own content or calls. -/
theorem hasContent_or_hasToolCalls :
    (hasContent msg || hasToolCalls msg) = (hasOwn num msg || hasCall num msg) := by
  have hown : hasOwn num msg = ownAssistant msg := by
    rw [hasOwn, role_eq h (by decide), role_eq h (by decide), h]
    rfl
  rw [Bool.eq_iff_iff, Bool.or_eq_true, Bool.or_eq_true, hasCall_iff num h, hown, hasToolCalls,
    Bool.not_eq_true', isEmpty_eq_false_iff, hasContent, ownAssistant, parts]
  cases field msg "content" with
  | none => simp [elements]
  | some v =>
    cases v with
    | arr content =>
      simp only [elements, getD_some, Bool.not_eq_true', isEmpty_eq_false_iff, List.any_eq_true]
      constructor
      · rintro (hcontent | hcalls)
        · obtain ⟨block, hb⟩ := exists_mem_of_ne_nil _ hcontent
          cases huse : isType block "tool_use" with
          | true => exact .inr (.inr ⟨block, hb, huse⟩)
          | false => exact .inl ⟨block, hb, huse⟩
        · exact .inr (.inl hcalls)
      · rintro (⟨block, hb, -⟩ | hcalls | ⟨block, hb, -⟩)
        · exact .inl (ne_nil_of_mem hb)
        · exact .inr hcalls
        · exact .inl (ne_nil_of_mem hb)
    | _ => simp [elements]

end

section Orphans

variable [DecidableEq N] (ids : List (JsData N))

variable {msg : JsData N}

theorem dropOrphans_tool (h : isRole msg "tool" = true) :
    dropOrphans num ids msg =
      if (idOf num msg "tool_call_id").all (hasId ids) then some msg else none := by
  rw [dropOrphans, h, role_eq h (by decide), role_eq h (by decide), Bool.true_and]
  cases (idOf num msg "tool_call_id").all (hasId ids) <;> rfl

theorem dropOrphans_user (h : isRole msg "user" = true) :
    dropOrphans num ids msg =
      match elements (field msg "content") with
      | some content =>
        let filteredContent := content.filter fun block => (resultId num block).all (hasId ids)
        if filteredContent.length ≠ content.length then
          if filteredContent.length = 0 then none
          else some (withField msg "content" (.arr filteredContent))
        else some msg
      | none => some msg := by
  rewrite [dropOrphans, role_eq h (by decide), Bool.false_and, if_neg Bool.false_ne_true, if_pos h,
    funext (keepsResult_eq num (hasId ids))]
  rfl

theorem dropOrphans_assistant (h : isRole msg "assistant" = true) :
    dropOrphans num ids msg = if hasOwn num msg || hasCall num msg then some msg else none := by
  rw [dropOrphans, role_eq h (by decide), role_eq h (by decide), h,
    ← hasContent_or_hasToolCalls num h]
  cases hasContent msg <;> cases hasToolCalls msg <;> rfl

theorem dropOrphans_other (htool : isRole msg "tool" = false) (huser : isRole msg "user" = false)
    (hassistant : isRole msg "assistant" = false) : dropOrphans num ids msg = some msg := by
  rw [dropOrphans, htool, huser, hassistant]
  rfl

omit [DecidableEq N] in
theorem hasCall_of_not_assistant {msg : JsData N} (h : isRole msg "assistant" = false) :
    hasCall num msg = false := by
  rw [hasCall, hasFreeCall_of_not_assistant num h, calledIds_of_not_assistant num h]
  rfl

omit [DecidableEq N] in
theorem answeredIds_user {msg : JsData N} (h : isRole msg "user" = true) :
    answeredIds num msg = (parts msg).filterMap (resultId num) := by
  rw [answeredIds, role_eq h (by decide), if_neg Bool.false_ne_true, if_pos h]

omit [DecidableEq N] in
theorem hasOwn_user {msg : JsData N} (h : isRole msg "user" = true) :
    hasOwn num msg = ownUser num msg := by
  rw [hasOwn, role_eq h (by decide), if_neg Bool.false_ne_true, if_pos h]

omit [DecidableEq N] in
/-- Some part of a content array stays when one answers no id or one of the ids. -/
theorem any_resultId_all (content : List (JsData N)) :
    (content.any fun block => (resultId num block).all ok) =
      ((content.any fun block => (resultId num block).isNone) ||
        (content.filterMap (resultId num)).any ok) := by
  induction content with
  | nil => rfl
  | cons block content ih =>
    rw [any_cons, any_cons, ih]
    cases hid : resultId num block with
    | none => simp
    | some r =>
      rw [filterMap_cons_some hid, any_cons, all_some, isNone_some,
        Bool.false_or, Bool.or_left_comm]

/-- Something is left of a message exactly when it has own content, calls something or answers one
of the calls. -/
theorem isSome_dropOrphans (msg : JsData N) :
    (dropOrphans num ids msg).isSome =
      (hasOwn num msg || (answeredIds num msg).any (hasId ids) || hasCall num msg) := by
  cases htool : isRole msg "tool" with
  | true =>
    rw [dropOrphans_tool num ids htool, hasCall_of_not_assistant num (role_eq htool (by decide)),
      hasOwn, answeredIds, if_pos htool, if_pos htool, ownTool]
    cases idOf num msg "tool_call_id" with
    | none => rfl
    | some id => cases hid : hasId ids id <;> simp [hid]
  | false =>
    cases huser : isRole msg "user" with
    | true =>
      rw [dropOrphans_user num ids huser, answeredIds_user num huser, hasOwn_user num huser,
        hasCall_of_not_assistant num (role_eq huser (by decide)), ownUser, parts]
      cases elements (field msg "content") with
      | none => rfl
      | some content =>
        have hany := any_resultId_all num (hasId ids) content
        dsimp only [all_some, getD_some]
        rw [Bool.or_false, Bool.or_assoc, ← hany]
        cases content with
        | nil => rfl
        | cons block content =>
          rw [isEmpty_cons, Bool.false_or]
          by_cases hnil : (block :: content).filter (fun b => (resultId num b).all (hasId ids)) = []
          · rw [hnil, if_pos (by simp), if_pos length_nil, isSome_none, eq_comm, List.any_eq_false]
            exact filter_eq_nil_iff.1 hnil
          · obtain ⟨b, hb⟩ := exists_mem_of_ne_nil _ hnil
            rw [List.any_eq_true.2 ⟨b, mem_filter.1 hb⟩,
              if_neg fun h => hnil (length_eq_zero_iff.1 h)]
            split <;> rfl
    | false =>
      cases hassistant : isRole msg "assistant" with
      | true =>
        rw [dropOrphans_assistant num ids hassistant, answeredIds_of_assistant num hassistant]
        cases hasOwn num msg <;> cases hasCall num msg <;> rfl
      | false =>
        rw [dropOrphans_other num ids htool huser hassistant, hasOwn, htool, huser, hassistant]
        rfl

theorem left_dropOrphans_user {msg' : JsData N} (huser : isRole msg "user" = true)
    (h : dropOrphans num ids msg = some msg') : Left num (fun _ => true) (hasId ids) msg msg' := by
  rw [dropOrphans_user num ids huser] at h
  cases hcontent : elements (field msg "content") with
  | none =>
    rw [hcontent] at h
    cases h
    refine left_self num msg (fun _ _ => rfl) fun r hr => ?_
    rw [answeredIds_user num huser, parts, hcontent] at hr
    cases hr
  | some content =>
    have hparts : parts msg = content := by rw [parts, hcontent, getD_some]
    rw [hcontent] at h
    dsimp only at h
    by_cases hlen : (content.filter fun b => (resultId num b).all (hasId ids)).length =
        content.length
    · rw [if_neg (not_not_intro hlen)] at h
      cases h
      refine left_self num msg (fun _ _ => rfl) fun r hr => ?_
      rw [answeredIds_user num huser, hparts, mem_filterMap] at hr
      obtain ⟨block, hb, hid⟩ := hr
      have hall := length_filter_eq_length_iff.1 hlen block hb
      rwa [hid, all_some] at hall
    · rw [if_pos hlen] at h
      obtain ⟨hne, heq⟩ := ite_none_left_eq_some.1 h
      cases heq
      have hrole := sameRole_withField msg
        (.arr (content.filter fun b => (resultId num b).all (hasId ids)))
      have hassistant : isRole msg "assistant" = false := role_eq huser (by decide)
      have hfield := field_withField_self
        (w := .arr (content.filter fun b => (resultId num b).all (hasId ids)))
        (elements_eq_some.1 hcontent)
      refine ⟨hrole, ?_, ?_, ?_, ?_⟩
      · -- a part that answers no id passes the filter
        rw [hasOwn_user num huser, hasOwn_user num ((hrole _).trans huser), ownUser, ownUser,
          hcontent, hfield]
        have hfiltered : (content.filter fun b => (resultId num b).all (hasId ids)) ≠ [] :=
          fun hnil => hne (length_eq_zero_iff.2 hnil)
        have hcontent : content ≠ [] := fun hnil => hfiltered (by rw [hnil]; rfl)
        rw [elements, all_some, all_some, isEmpty_eq_false_iff.2 hfiltered,
          isEmpty_eq_false_iff.2 hcontent]
        refine any_filter_of_imp (fun block hb => ?_) content
        rw [isNone_iff_eq_none.1 hb]
        rfl
      · rw [hasFreeCall_of_not_assistant num hassistant,
          hasFreeCall_of_not_assistant num ((hrole _).trans hassistant)]
      · rw [calledIds_of_not_assistant num hassistant,
          calledIds_of_not_assistant num ((hrole _).trans hassistant)]
        rfl
      · rw [answeredIds_user num huser, answeredIds_user num ((hrole _).trans huser), hparts,
          ← filterMap_filter_all, parts, hfield]
        rfl

theorem left_dropOrphans {msg' : JsData N} (h : dropOrphans num ids msg = some msg') :
    Left num (fun _ => true) (hasId ids) msg msg' := by
  cases htool : isRole msg "tool" with
  | true =>
    rw [dropOrphans_tool num ids htool] at h
    obtain ⟨hall, heq⟩ := ite_none_right_eq_some.1 h
    cases heq
    refine left_self num msg (fun _ _ => rfl) fun r hr => ?_
    rw [answeredIds, if_pos htool, mem_toList] at hr
    rwa [hr, all_some] at hall
  | false =>
    cases huser : isRole msg "user" with
    | true => exact left_dropOrphans_user num ids huser h
    | false =>
      have hself : Left num (fun _ => true) (hasId ids) msg msg := by
        refine left_self num msg (fun _ _ => rfl) fun r hr => ?_
        rw [answeredIds, htool, huser] at hr
        cases hr
      cases hassistant : isRole msg "assistant" with
      | true =>
        rw [dropOrphans_assistant num ids hassistant] at h
        obtain ⟨-, heq⟩ := ite_none_right_eq_some.1 h
        exact some.inj heq ▸ hself
      | false =>
        rw [dropOrphans_other num ids htool huser hassistant] at h
        cases h
        exact hself

end Orphans

end OmniRoute.ContextManager
