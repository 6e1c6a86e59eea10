import OmniRoute.ModelLockout.Keys
import OmniRoute.QuotaCache.Restart

/-!
# Exhaustion by scope

`isQuotaExhaustedForRequest` of `domain/quotaCache.ts` for the providers whose models have windows
of their own, with `config/codexQuotaScopes.ts` and `services/antigravityQuotaFamily.ts`. A request
overlays what is stored about its scope (`hydrateCodexQuotaCacheForRequest`); it is given decoded
here. The clock is read once a call, and no model is the empty text.

**Main result (`scoped_iff`).** The queries of a run are answered by the windows of their scopes
exactly when none comes at the reset time of the connection or later for a scope that is used up.
That reset time belongs to a window of any scope.
-/

namespace OmniRoute.QuotaCache

open List ModelLockout

/-! ## Scopes -/

def codexSparkQuotaSession : String := "gpt_5_3_codex_spark_session"

def codexSparkQuotaWeekly : String := "gpt_5_3_codex_spark_weekly"

section Scopes

variable (P : Platform)

/-- The scope of a model is that of its lockouts. -/
def Platform.lockEnv : LockEnv where
  resolveProviderId := id
  toLowerCase := P.toLowerCase
  msUntilTomorrow := id

def isCodexSparkQuotaKey (key : String) : Bool :=
  let normalized := P.toLowerCase (jsTrim key)
  normalized ≠ "" &&
    ([codexSparkQuotaSession, codexSparkQuotaWeekly, "codex-spark", "codex-spark-weekly"].contains
        normalized ||
      ["codex-spark", "codex_spark", "gpt_5_3_codex_spark"].any (includes normalized))

def getCodexQuotaWindowFilterForModel (model windowName : String) : Bool :=
  let isSpark := isCodexSparkQuotaKey P windowName
  if getCodexModelScope P.lockEnv model = "spark" then isSpark else !isSpark

/-- `replace(/^(antigravity|agy)\//, "")` -/
def stripProvider (text : String) : String := dropPrefix text ["antigravity/", "agy/"]

def selectAntigravityQuotaWindowNames (quotaNames : List String) (requestedModel : String) :
    List String :=
  let requestedFamily := getAntigravityQuotaFamily P.lockEnv requestedModel
  let cleanRequestedModel := stripProvider requestedModel
  -- what comes after the last slash
  let bareModel :=
    String.ofList (cleanRequestedModel.toList.reverse.takeWhile (· ≠ '/')).reverse
  let byFamily (familyAggregate : String) :=
    let exactWindows := quotaNames.filter fun windowName => stripProvider windowName = bareModel
    let windows := exactWindows ++ [familyAggregate].filter (· ∈ quotaNames)
    if windows ≠ [] then windows
    else
      quotaNames.filter fun windowName =>
        getAntigravityQuotaFamily P.lockEnv windowName = requestedFamily
  match requestedFamily with
  | .other =>
    quotaNames.filter fun windowName =>
      stripProvider windowName = bareModel ∨ stripProvider windowName = cleanRequestedModel
  | .gemini => byFamily "gemini_weekly"
  | .claude => byFamily "claude_gpt_weekly"

/-! ## Queries -/

def everyReached (entry : QuotaCacheEntry) (windowNames : List String) (now : ℤ) : Bool :=
  !windowNames.isEmpty && windowNames.all fun windowName =>
    (getQuotaWindowStatus P (some entry) windowName 99 now).any (·.reachedThreshold)

def isAntigravityQuotaExhausted (entry : QuotaCacheEntry) (requestedModel : String) (now : ℤ) :
    Bool :=
  let quotaNames := entry.quotas.keys
  if requestedModel = "" ∨ quotaNames = [] then entry.exhausted
  else everyReached P entry (selectAntigravityQuotaWindowNames P quotaNames requestedModel) now

def isCodexQuotaExhausted (entry : QuotaCacheEntry) (requestedModel : String) (now : ℤ) : Bool :=
  let quotaNames := entry.quotas.keys
  if requestedModel = "" ∨ quotaNames = [] then entry.exhausted
  else
    everyReached P entry
      (quotaNames.filter (getCodexQuotaWindowFilterForModel P requestedModel)) now

def isStandardQuotaExhausted (entry : QuotaCacheEntry) (now : ℤ) : Bool :=
  entry.exhausted && !(truthy entry.nextResetAt = none && exhaustedTtlMs < now - entry.fetchedAt)

/-- The entry that a call finds. -/
def found (s : State) (now : ℤ) : Option QuotaCacheEntry := s.entry <|> hydrate P s.rows now

def isQuotaExhaustedForRequest (s : State) (provider requestedModel : String) (now : ℤ) :
    State × Bool :=
  match found P s now with
  | none => (s, false)
  | some entry =>
    if advancedWindowResetAt P entry now then
      ({ s with entry := some { entry with exhausted := false } }, false)
    else
      ({ s with entry := some entry },
        if provider = "antigravity" ∨ provider = "agy" then
          isAntigravityQuotaExhausted P entry requestedModel now
        else if provider = "codex" then isCodexQuotaExhausted P entry requestedModel now
        else isStandardQuotaExhausted entry now)

/-! ## Hydration of a scope -/

inductive CodexWindow
  | session
  | weekly

def CodexWindow.key (scope : String) : CodexWindow → String
  | .session => if scope = "spark" then codexSparkQuotaSession else "session"
  | .weekly => if scope = "spark" then codexSparkQuotaWeekly else "weekly"

/-- The numbers as `Number` reads them. -/
structure CodexPersistedQuotaState where
  usage5h : Option ℚ := none
  limit5h : Option ℚ := none
  resetAt5h : Option String := none
  usage7d : Option ℚ := none
  limit7d : Option ℚ := none
  resetAt7d : Option String := none

structure CodexChildQuotaHydration where
  quotaState : Option CodexPersistedQuotaState
  exhaustedWindow : Option CodexWindow

def remainingPercent (usage limit : Option ℚ) : Option ℚ :=
  match usage, limit with
  | some used, some total =>
    if total ≤ 0 then none else some (clampPercent ((total - used) / total * 100))
  | _, _ => none

def mergeCodexPersistedQuota (quotas : OrdMap String QuotaInfo) (scope : String)
    (quotaState : CodexPersistedQuotaState) : OrdMap String QuotaInfo :=
  let merge (quotas : OrdMap String QuotaInfo) (window : CodexWindow) (usage limit : Option ℚ)
      (resetAt : Option String) :=
    match remainingPercent usage limit with
    | some remainingPercentage => quotas.set (window.key scope) { remainingPercentage, resetAt }
    | none => quotas
  let quotas := merge quotas .session quotaState.usage5h quotaState.limit5h quotaState.resetAt5h
  merge quotas .weekly quotaState.usage7d quotaState.limit7d quotaState.resetAt7d

def hydrateCodexQuotaCacheForRequest (s : State) (provider requestedModel : String)
    (children : String → CodexChildQuotaHydration) (now : ℤ) : State :=
  if provider ≠ "codex" ∨ jsTrim requestedModel = "" then s
  else
    let scope := getCodexModelScope P.lockEnv requestedModel
    let hydration := children scope
    match hydration.quotaState with
    | none => s
    | some quotaState =>
      let entry := (found P s now).getD
        { provider, quotas := .empty, fetchedAt := now, exhausted := false, nextResetAt := none }
      let quotas := mergeCodexPersistedQuota entry.quotas scope quotaState
      let window := hydration.exhaustedWindow.bind fun window => quotas.get (window.key scope)
      let quotas' := match hydration.exhaustedWindow, window with
        | some name, some window =>
          quotas.set (name.key scope) { window with remainingPercentage := 0 }
        | _, _ => quotas
      { s with entry := some { entry with
          quotas := quotas'
          exhausted := isExhausted quotas'
          nextResetAt := truthy (window.bind QuotaInfo.resetAt) <|> entry.nextResetAt } }

/-! ## Runs -/

inductive Event
  | set (report : Report)
  | hydrate (model : String) (children : String → CodexChildQuotaHydration) (now : ℤ)
  | query (model : String) (now : ℤ)

def Event.isQuery : Event → Bool
  | .query _ _ => true
  | _ => false

/-- The providers with scopes. -/
inductive ScopedProvider
  | codex
  | antigravity
  | agy

def ScopedProvider.name : ScopedProvider → String
  | .codex => "codex"
  | .antigravity => "antigravity"
  | .agy => "agy"

variable (provider : ScopedProvider)

def exhaustedFor (s : State) (model : String) (now : ℤ) : Bool :=
  (isQuotaExhaustedForRequest P s provider.name model now).2

def fire (s : State) : Event → State
  | .set report => setQuotaCache P s report
  | .hydrate model children now =>
    hydrateCodexQuotaCacheForRequest P s provider.name model children now
  | .query model now => (isQuotaExhaustedForRequest P s provider.name model now).1

/-- The window is at the threshold, and its own reset time is not past. -/
def UsedUp (q : QuotaInfo) (now : ℤ) : Prop :=
  q.fractionReported ≠ some false ∧ 99 ≤ 100 - clampPercent q.remainingPercentage ∧
    ∀ ms ∈ resetMs P q.resetAt, now < ms

/-- The windows selected for a model. -/
def scopeOf (model : String) (quotas : OrdMap String QuotaInfo) : List String :=
  match provider with
  | .codex => quotas.keys.filter (getCodexQuotaWindowFilterForModel P model)
  | _ => selectAntigravityQuotaWindowNames P quotas.keys model

def ScopeExhausted (quotas : OrdMap String QuotaInfo) (model : String) (now : ℤ) : Prop :=
  scopeOf P provider model quotas ≠ [] ∧
    ∀ windowName ∈ scopeOf P provider model quotas,
      ∃ q, quotas.get windowName = some q ∧ UsedUp P q now

/-- The windows of the scope are the same. -/
def AgreeOn (model : String) (quotas quotas' : OrdMap String QuotaInfo) : Prop :=
  scopeOf P provider model quotas = scopeOf P provider model quotas' ∧
    ∀ windowName ∈ scopeOf P provider model quotas, quotas.get windowName = quotas'.get windowName

/-- A model is named, and the entry found for it has windows. -/
structure Asked (s : State) (model : String) (now : ℤ) (entry : QuotaCacheEntry) : Prop where
  found : found P s now = some entry
  named : model ≠ ""
  cached : entry.quotas.keys ≠ []

/-- A query is answered by the windows of the scope. -/
def Answered (s : State) : Event → Prop
  | .query model now => ∀ entry, Asked P s model now entry →
    (exhaustedFor P provider s model now = true ↔ ScopeExhausted P provider entry.quotas model now)
  | _ => True

/-- At a query, the reset time of the connection is not past or the scope is not used up. -/
def Unreset (s : State) : Event → Prop
  | .query model now => ∀ entry, Asked P s model now entry →
    ¬(advancedWindowResetAt P entry now = true ∧ ScopeExhausted P provider entry.quotas model now)
  | _ => True

end Scopes

/-! ## One query -/

variable {P : Platform} {provider : ScopedProvider} {model : String} {now : ℤ}
  {entry entry' : QuotaCacheEntry} {s t : State}

theorem mem_keys_of_mem_scopeOf {quotas : OrdMap String QuotaInfo} {windowName : String}
    (h : windowName ∈ scopeOf P provider model quotas) : windowName ∈ quotas.keys := by
  have hfamily : ∀ (aggregate : String) (p q : String → Bool),
      (if quotas.keys.filter p ++ [aggregate].filter (· ∈ quotas.keys) ≠ [] then
        quotas.keys.filter p ++ [aggregate].filter (· ∈ quotas.keys)
      else quotas.keys.filter q) ⊆ quotas.keys := by
    intro aggregate p q
    split
    · refine append_subset.2 ⟨filter_sublist.subset, fun windowName h => ?_⟩
      have hmem := mem_filter.1 h
      rw [← mem_singleton.1 hmem.1] at hmem
      exact of_decide_eq_true hmem.2
    · exact filter_sublist.subset
  revert windowName
  show scopeOf P provider model quotas ⊆ quotas.keys
  unfold scopeOf
  split
  · exact filter_sublist.subset
  · unfold selectAntigravityQuotaWindowNames
    dsimp only
    split
    · exact filter_sublist.subset
    · exact hfamily _ _ _
    · exact hfamily _ _ _

theorem clampPercent_used (value : ℚ) :
    clampPercent (100 - clampPercent value) = 100 - clampPercent value := by
  have hlow : 0 ≤ clampPercent value := le_max_left _ _
  have hhigh : clampPercent value ≤ 100 := max_le (by norm_num) (min_le_left _ _)
  exact clampPercent_self (by linarith) (by linarith)

theorem reachedThreshold_iff {q : QuotaInfo} :
    (windowStatus P q 99 now).reachedThreshold = true ↔ UsedUp P q now := by
  have hused : 99 ≤ 100 - clampPercent q.remainingPercentage ↔
      clampPercent q.remainingPercentage ≤ 0 ∨ 99 ≤ 100 - clampPercent q.remainingPercentage := by
    constructor
    · exact Or.inr
    · rintro (h | h)
      · linarith
      · exact h
  unfold UsedUp
  rw [hused]
  cases hreset : resetMs P q.resetAt with
  | none => simp [windowStatus, clampPercent_used, hreset]
  | some ms =>
    simp [windowStatus, clampPercent_used, hreset]
    tauto

/-- The status is read of the window of that name. -/
theorem everyReached_iff :
    everyReached P entry (scopeOf P provider model entry.quotas) now = true ↔
      ScopeExhausted P provider entry.quotas model now := by
  unfold everyReached ScopeExhausted
  simp only [Bool.and_eq_true, Bool.not_eq_true', isEmpty_eq_false_iff, all_eq_true]
  refine and_congr_right fun _ => forall₂_congr fun windowName hmem => ?_
  obtain ⟨q, hget⟩ := OrdMap.mem_keys.1 (mem_keys_of_mem_scopeOf hmem)
  simp [getQuotaWindowStatus, resolveQuotaWindow_of_get hget, hget, reachedThreshold_iff]

/-- The scope is looked at when the connection is not reset. -/
theorem exhaustedFor_iff (h : Asked P s model now entry) :
    exhaustedFor P provider s model now = true ↔
      advancedWindowResetAt P entry now = false ∧
        ScopeExhausted P provider entry.quotas model now := by
  have hnot : ¬(model = "" ∨ entry.quotas.keys = []) := fun hor => hor.elim h.named h.cached
  have hcodex : isCodexQuotaExhausted P entry model now =
      everyReached P entry (scopeOf P .codex model entry.quotas) now := if_neg hnot
  have hantigravity : isAntigravityQuotaExhausted P entry model now =
      everyReached P entry (selectAntigravityQuotaWindowNames P entry.quotas.keys model) now :=
    if_neg hnot
  rw [exhaustedFor, isQuotaExhaustedForRequest, h.found, ← everyReached_iff]
  dsimp only
  cases advancedWindowResetAt P entry now with
  | true => simp
  | false =>
    cases provider with
    | codex => exact (iff_of_eq (congrArg (· = true) hcodex)).trans (and_iff_right rfl).symm
    | _ => exact (iff_of_eq (congrArg (· = true) hantigravity)).trans (and_iff_right rfl).symm

theorem answered_iff (e : Event) : Answered P provider s e ↔ Unreset P provider s e := by
  cases e with
  | query model now =>
    refine forall₂_congr fun entry hasked => ?_
    rw [exhaustedFor_iff hasked]
    cases advancedWindowResetAt P entry now <;> simp
  | _ => exact Iff.rfl

theorem AgreeOn.scopeExhausted_iff {quotas quotas' : OrdMap String QuotaInfo}
    (h : AgreeOn P provider model quotas quotas') :
    ScopeExhausted P provider quotas model now ↔ ScopeExhausted P provider quotas' model now := by
  unfold ScopeExhausted
  rw [← h.1]
  refine and_congr_right fun _ => forall₂_congr fun windowName hmem => ?_
  rw [h.2 windowName hmem]

/-! ## Removing queries -/

/-- What a query reads of a state. -/
def view (P : Platform) (s : State) : Option (OrdMap String QuotaInfo × Option String) :=
  (found P s 0).map fun entry => (entry.quotas, entry.nextResetAt)

theorem view_eq (now : ℤ) :
    view P s = (found P s now).map fun entry => (entry.quotas, entry.nextResetAt) := by
  unfold view found
  cases s.entry with
  | some entry => rfl
  | none =>
    show (hydrate P s.rows 0).map _ = (hydrate P s.rows now).map _
    unfold hydrate
    dsimp only
    split
    · rfl
    · rfl

theorem view_query (model : String) (now : ℤ) :
    view P (fire P provider s (.query model now)) = view P s := by
  rw [view_eq now, view_eq (s := s) now]
  show (found P (isQuotaExhaustedForRequest P s provider.name model now).1 now).map _ = _
  rw [isQuotaExhaustedForRequest]
  cases hfound : found P s now with
  | none => rw [hfound]
  | some entry =>
    dsimp only
    split
    · rfl
    · rfl

theorem view_fire (h : view P s = view P t) (e : Event) :
    view P (fire P provider s e) = view P (fire P provider t e) := by
  cases e with
  | set report => rfl
  | query model now => rw [view_query, view_query, h]
  | hydrate model children now =>
    have hfound := h
    rw [view_eq now, view_eq (s := t) now] at hfound
    unfold fire hydrateCodexQuotaCacheForRequest
    dsimp only
    split
    · exact h
    · split
      · exact h
      · rcases hs : found P s now with _ | entry <;> rcases ht : found P t now with _ | entry'
        · rfl
        · simp [hs, ht] at hfound
        · simp [hs, ht] at hfound
        · have heq : entry.quotas = entry'.quotas ∧ entry.nextResetAt = entry'.nextResetAt := by
            simpa [hs, ht] using hfound
          simp [view, found, heq.1, heq.2]

theorem view_foldl_filter (es : List Event) : ∀ {s t : State}, view P s = view P t →
    view P (es.foldl (fire P provider) s) =
      view P ((es.filter fun e => !e.isQuery).foldl (fire P provider) t) := by
  induction es with
  | nil => exact id
  | cons e es ih =>
    intro s t h
    cases hquery : e.isQuery with
    | true =>
      cases e with
      | query model now =>
        rw [filter_cons_of_neg (by simp [hquery])]
        exact ih ((view_query model now).trans h)
      | _ => cases hquery
    | false =>
      rw [filter_cons_of_pos (by simp [hquery])]
      exact ih (view_fire h e)

theorem Asked.exhaustedFor_eq (h : Asked P s model now entry) (hview : view P s = view P t) :
    exhaustedFor P provider s model now = exhaustedFor P provider t model now := by
  rw [view_eq now, view_eq (s := t) now, h.found] at hview
  obtain ⟨entry', hfound, heq⟩ := Option.map_eq_some_iff.1 hview.symm
  obtain ⟨hquotas, hreset⟩ := Prod.mk.inj heq
  have hasked : Asked P t model now entry' := ⟨hfound, h.named, hquotas ▸ h.cached⟩
  rw [Bool.eq_iff_iff, exhaustedFor_iff h, exhaustedFor_iff hasked, hquotas]
  simp only [advancedWindowResetAt, hreset]

/-! ## Independence of the other scopes -/

/-- A run whose queries are not reset answers by the scopes, and no other does; so do two histories
that agree on a scope; and no query changes a later answer. -/
theorem scoped_iff (P : Platform) (provider : ScopedProvider) (s t : State) (es es' : List Event) :
    ((∀ n e, es[n]? = some e → Answered P provider ((es.take n).foldl (fire P provider) s) e) ↔
      ∀ n e, es[n]? = some e → Unreset P provider ((es.take n).foldl (fire P provider) s) e) ∧
    (∀ model now entry entry',
      Asked P (es.foldl (fire P provider) s) model now entry →
      Asked P (es'.foldl (fire P provider) t) model now entry' →
      AgreeOn P provider model entry.quotas entry'.quotas →
      Unreset P provider (es.foldl (fire P provider) s) (.query model now) →
      Unreset P provider (es'.foldl (fire P provider) t) (.query model now) →
      exhaustedFor P provider (es.foldl (fire P provider) s) model now =
        exhaustedFor P provider (es'.foldl (fire P provider) t) model now) ∧
    ∀ model now entry, Asked P (es.foldl (fire P provider) s) model now entry →
      exhaustedFor P provider (es.foldl (fire P provider) s) model now =
        exhaustedFor P provider
          ((es.filter fun e => !e.isQuery).foldl (fire P provider) s) model now := by
  refine ⟨?_, ?_, ?_⟩
  · exact forall₃_congr fun n e _ => answered_iff e
  · intro model now entry entry' hasked hasked' hagree hunreset hunreset'
    rw [Bool.eq_iff_iff, (answered_iff _).2 hunreset entry hasked,
      (answered_iff _).2 hunreset' entry' hasked', hagree.scopeExhausted_iff]
  · intro model now entry hasked
    exact hasked.exhaustedFor_eq (view_foldl_filter es rfl)

/-- The reset of another scope: `spark` is used up until 20, `codex` was until 10. -/
def sparkDay : List Event :=
  [.hydrate "gpt-5.3-codex-spark"
      (fun _ => ⟨some ⟨some 9, some 9, some "20", none, none, none⟩, none⟩) 0,
    .hydrate "gpt-5" (fun _ => ⟨some ⟨some 9, some 9, some "10", none, none, none⟩, some .session⟩) 0,
    .query "gpt-5.3-codex-spark" 15]

/-- At 15 the models of `spark` are served. -/
theorem sparkDay_not_answered :
    ¬∀ (P : Platform) (provider : ScopedProvider) (s : State) (es : List Event) (n : ℕ) (e : Event),
      es[n]? = some e → Answered P provider ((es.take n).foldl (fire P provider) s) e := by
  intro h
  let P : Platform :=
    ⟨fun text => if text = "10" then some 10 else some 20, id, fun _ _ => true, id⟩
  have hunreset := (answered_iff _).1 (h P .codex (.start 0) sparkDay 2 _ rfl)
  exact hunreset _ ⟨rfl, by decide, by decide +kernel⟩
    ⟨by decide +kernel, everyReached_iff.1 (by decide +kernel)⟩

end OmniRoute.QuotaCache
