import OmniRoute.Lib.JsString

/-!
# The keys of model lockouts

`open-sse/services/accountFallback.ts`, `accountFallback/exactModelLock.ts`,
`config/codexQuotaScopes.ts` and `antigravityQuotaFamily.ts`: a lock of a model is written under one
of three keys, the quota scope of the model, the model itself, or the model in the namespace of exact
locks, and a model is locked when one of its three keys is.

The table behind `resolveProviderId` and `toLowerCase` are in `LockEnv`.

**Main results (`exactKey_mem_keys`, `modelKey_mem_keys`, `scopeKey_mem_keys`).** Which other models
of a quota scope have the key that a lock is written under.
-/

namespace OmniRoute.ModelLockout

structure LockEnv where
  resolveProviderId : String → String
  toLowerCase : String → String
  msUntilTomorrow : ℚ → ℚ

/-! ## Quota scopes -/

def includes (text pattern : String) : Bool := decide (pattern.toList <:+: text.toList)

def startsWith (text pattern : String) : Bool := decide (pattern.toList <+: text.toList)

def codexScopePatterns : List (String × String) :=
  [("codex-spark", "spark"), ("spark", "spark"), ("bengalfox", "spark"), ("codex", "codex"),
    ("gpt-5", "codex")]

def getCodexModelScope (env : LockEnv) (model : String) : String :=
  let lower := env.toLowerCase model
  match codexScopePatterns.find? fun p => includes lower p.1 with
  | some (_, scope) => scope
  | none => "codex"

def normalizeModelId (env : LockEnv) (model : String) : String := env.toLowerCase (jsTrim model)

/-- The text after a prefix, or the text. -/
def dropPrefix (text : String) (prefixes : List String) : String :=
  match prefixes.find? (startsWith text) with
  | some p => String.ofList (text.toList.drop p.length)
  | none => text

inductive QuotaFamily
  | gemini
  | claude
  | other
  deriving DecidableEq

def QuotaFamily.name : QuotaFamily → String
  | .gemini => "gemini"
  | .claude => "claude"
  | .other => "other"

def getAntigravityQuotaFamily (env : LockEnv) (model : String) : QuotaFamily :=
  let normalized := dropPrefix (normalizeModelId env model) ["antigravity/", "agy/"]
  let afterSlash := normalized.toList.dropWhile (· ≠ '/')
  let bare := if afterSlash = [] then normalized else String.ofList afterSlash.tail
  if startsWith bare "gemini-" || includes bare "/gemini-" || includes bare "gemini" then .gemini
  else if startsWith bare "claude-" || startsWith bare "cloud-" || includes bare "/claude-" ||
      includes bare "/cloud-" || includes bare "anthropic" then .claude
  else .other

def getQuotaScopedModelForProvider (env : LockEnv) (provider model : String) : String :=
  if provider ≠ "antigravity" ∧ provider ≠ "agy" then model
  else
    match getAntigravityQuotaFamily env model with
    | .other => model
    | family => "family:" ++ family.name

/-- The models of one quota share this scope. -/
def quotaScope (env : LockEnv) (canonicalProvider model : String) : String :=
  if canonicalProvider = "codex" then getCodexModelScope env model
  else getQuotaScopedModelForProvider env canonicalProvider model

/-! ## Keys -/

def lockKey (canonicalProvider connectionId lockModel : String) : String :=
  canonicalProvider ++ ":" ++ connectionId ++ ":" ++ lockModel

def getModelLockKey (env : LockEnv) (provider connectionId model : String) (reason : Option String)
    (status : Option ℕ) : String :=
  let canonicalProvider := env.resolveProviderId provider
  lockKey canonicalProvider connectionId
    (if reason = some "not_found" ∨ status = some 404 then model
      else quotaScope env canonicalProvider model)

def buildExactModelLockKey (env : LockEnv) (canonicalProvider connectionId model : String) :
    String :=
  lockKey canonicalProvider connectionId ("exact:" ++ env.toLowerCase (jsTrim model))

def collectModelLockKeys (familyKey notFoundKey exactKey : String) : List String :=
  [familyKey, notFoundKey, exactKey].eraseDups

def getModelLockKeys (env : LockEnv) (provider connectionId model : String) : List String :=
  collectModelLockKeys (getModelLockKey env provider connectionId model none none)
    (getModelLockKey env provider connectionId model (some "not_found") (some 404))
    (buildExactModelLockKey env (env.resolveProviderId provider) connectionId model)

theorem lockKey_inj {canonicalProvider connectionId x y : String} :
    lockKey canonicalProvider connectionId x = lockKey canonicalProvider connectionId y ↔ x = y :=
  String.append_right_inj _

theorem mem_getModelLockKeys {env : LockEnv} {provider connectionId model key : String} :
    key ∈ getModelLockKeys env provider connectionId model ↔
      key = lockKey (env.resolveProviderId provider) connectionId
          (quotaScope env (env.resolveProviderId provider) model) ∨
        key = lockKey (env.resolveProviderId provider) connectionId model ∨
        key = buildExactModelLockKey env (env.resolveProviderId provider) connectionId model := by
  rw [getModelLockKeys, collectModelLockKeys, List.mem_eraseDups]
  simp [getModelLockKey]

/-- The scope of a model is the model itself or one of four names. -/
theorem quotaScope_cases (env : LockEnv) (canonicalProvider model : String) :
    quotaScope env canonicalProvider model = model ∨
      quotaScope env canonicalProvider model ∈ ["codex", "spark", "family:gemini", "family:claude"] := by
  unfold quotaScope
  by_cases hcodex : canonicalProvider = "codex"
  · rw [if_pos hcodex]
    refine .inr ?_
    unfold getCodexModelScope
    simp only
    cases hfind : codexScopePatterns.find? fun p => includes (env.toLowerCase model) p.1 with
    | none => simp
    | some p =>
      have hmem := List.mem_of_find?_eq_some hfind
      have hall : ∀ p ∈ codexScopePatterns, p.2 ∈ ["codex", "spark", "family:gemini",
          "family:claude"] := by decide
      exact hall p hmem
  · rw [if_neg hcodex, getQuotaScopedModelForProvider]
    by_cases hquota : canonicalProvider ≠ "antigravity" ∧ canonicalProvider ≠ "agy"
    · rw [if_pos hquota]
      exact .inl rfl
    · rw [if_neg hquota]
      cases getAntigravityQuotaFamily env model with
      | gemini => exact .inr (by simp [QuotaFamily.name])
      | claude => exact .inr (by simp [QuotaFamily.name])
      | other => exact .inl rfl

/-- A scope in the namespace of exact locks is the name of the model. -/
theorem eq_of_quotaScope_exact {env : LockEnv} {canonicalProvider model x : String}
    (h : quotaScope env canonicalProvider model = "exact:" ++ x) : model = "exact:" ++ x := by
  rcases quotaScope_cases env canonicalProvider model with hself | hmem
  · rw [← hself, h]
  · rw [h] at hmem
    have hne : ∀ name ∈ ["codex", "spark", "family:gemini", "family:claude"],
        name.toList.take 6 ≠ "exact:".toList := by decide
    exact absurd (by simp [String.toList_append]) (hne _ hmem)

/-! ## Models that share a key -/

section Shared

variable {env : LockEnv} {provider connectionId model other : String}

theorem exactKey_mem_keys :
    buildExactModelLockKey env (env.resolveProviderId provider) connectionId model ∈
        getModelLockKeys env provider connectionId other ↔
      normalizeModelId env other = normalizeModelId env model ∨
        other = "exact:" ++ normalizeModelId env model := by
  rw [mem_getModelLockKeys, buildExactModelLockKey, lockKey_inj, lockKey_inj,
    buildExactModelLockKey, lockKey_inj, String.append_right_inj]
  constructor
  · rintro (h | h | h)
    · exact .inr (eq_of_quotaScope_exact h.symm)
    · exact .inr h.symm
    · exact .inl h.symm
  · rintro (h | h)
    · exact .inr (.inr h.symm)
    · exact .inr (.inl h.symm)

theorem modelKey_mem_keys (hne : other ≠ model) :
    lockKey (env.resolveProviderId provider) connectionId model ∈
        getModelLockKeys env provider connectionId other ↔
      model = quotaScope env (env.resolveProviderId provider) other ∨
        model = "exact:" ++ normalizeModelId env other := by
  rw [mem_getModelLockKeys, buildExactModelLockKey, lockKey_inj, lockKey_inj, lockKey_inj]
  exact or_congr_right (or_iff_right (Ne.symm hne))

theorem scopeKey_mem_keys (hscope : quotaScope env (env.resolveProviderId provider) other =
      quotaScope env (env.resolveProviderId provider) model) :
    lockKey (env.resolveProviderId provider) connectionId
        (quotaScope env (env.resolveProviderId provider) model) ∈
      getModelLockKeys env provider connectionId other := by
  rw [mem_getModelLockKeys, hscope]
  exact .inl rfl

end Shared

end OmniRoute.ModelLockout
