import OmniRoute.Lib.OrdMap

/-!
# Token-limit counters

A token limit counts, for one API key, the billable tokens of the requests in its scope since
the start of its window. The count is a row of `api_key_token_counters`, one for each limit and
window start. Two paths create that row. A read finds none and seeds it from `usage_history`,
if that has tokens in the window; `recordTokenUsage` finds none, seeds it likewise, and then
adds the tokens of its own request. A cache keeps the last total of each limit for a while.

The start of a window is any function of the limit's reset interval and time and of the clock.
Token counts are natural numbers. The reset log, which is only written here, is left out.
-/

namespace OmniRoute.TokenLimits

inductive TokenLimitScopeType
  | model
  | provider
  | global
  deriving DecidableEq

inductive BudgetResetInterval
  | daily
  | weekly
  | monthly
  deriving DecidableEq

structure TokenLimit where
  id : String
  apiKeyId : String
  scopeType : TokenLimitScopeType
  scopeValue : String
  resetInterval : BudgetResetInterval
  resetTime : String
  enabled : Bool
  deriving DecidableEq

/-- A finished request; `timestamp` is that of its row in `usage_history`. -/
structure Request where
  apiKeyId : String
  provider : String
  model : String
  tokensInput : ℕ
  tokensOutput : ℕ
  tokensReasoning : ℕ
  timestamp : ℤ
  deriving DecidableEq

/-- `computeBillableTokens`, and a row's share of the sum over the history. -/
def Request.billable (r : Request) : ℕ := r.tokensInput + r.tokensOutput + r.tokensReasoning

structure CacheEntry where
  windowStart : ℤ
  tokensUsed : ℕ
  syncedAt : ℤ

/-- The table of limits and the calendar. -/
structure Config where
  limits : List TokenLimit
  /-- `id` is the primary key. -/
  nodup : (limits.map (·.id)).Nodup
  /-- `periodStartAt` of `getBudgetWindow`. -/
  periodStartAt : BudgetResetInterval → String → ℤ → ℤ

abbrev Counters := OrdMap (String × ℤ) ℕ

structure State where
  usageHistory : List Request
  counters : Counters
  cache : OrdMap String CacheEntry

def State.init : State := ⟨[], .empty, .empty⟩

def cacheTtlMs : ℤ := 5000

variable (cfg : Config)

/-- The start of the window that `now` is in. -/
def Config.windowStart (limit : TokenLimit) (now : ℤ) : ℤ :=
  cfg.periodStartAt limit.resetInterval limit.resetTime now

/-- The request is in the limit's scope, and is of its API key. -/
def TokenLimit.appliesTo (limit : TokenLimit) (r : Request) : Bool :=
  decide (r.apiKeyId = limit.apiKeyId) &&
    match limit.scopeType with
    | .model => decide (r.model = limit.scopeValue)
    | .provider => decide (r.provider = limit.scopeValue)
    | .global => true

/-- The rows of a limit in the window that starts at `windowStart`. -/
def windowRows (limit : TokenLimit) (windowStart : ℤ) (usageHistory : List Request) :
    List Request :=
  usageHistory.filter fun r => limit.appliesTo r && decide (windowStart ≤ r.timestamp)

def seedWindowUsageFromHistory (limit : TokenLimit) (windowStart : ℤ)
    (usageHistory : List Request) : ℕ :=
  ((windowRows limit windowStart usageHistory).map Request.billable).sum

/-- The enabled limits that apply to a request. -/
def Config.getTokenLimitsForRequest (r : Request) : List TokenLimit :=
  cfg.limits.filter fun limit => limit.enabled && limit.appliesTo r

def getWindowUsage (counters : Counters) (limitId : String) (windowStart : ℤ) : ℕ :=
  (counters.get (limitId, windowStart)).getD 0

/-- Add to the counter, creating it if need be. -/
def incrementWindowTokens (limitId : String) (windowStart : ℤ) (tokens : ℕ) (counters : Counters) :
    Counters :=
  counters.set (limitId, windowStart) (getWindowUsage counters limitId windowStart + tokens)

/-- Seed the counter, if there are tokens to seed it with. -/
def seedCounter (limit : TokenLimit) (windowStart : ℤ) (usageHistory : List Request)
    (counters : Counters) : Counters :=
  if seedWindowUsageFromHistory limit windowStart usageHistory > 0 then
    incrementWindowTokens limit.id windowStart
      (seedWindowUsageFromHistory limit windowStart usageHistory) counters
  else counters

/-- The cache has an entry of this window. -/
def State.cachedWindow (s : State) (limit : TokenLimit) (windowStart : ℤ) : Bool :=
  (s.cache.get limit.id).any fun cached => decide (cached.windowStart = windowStart)

/-- The cached total, if it may be returned. -/
def State.freshCache (s : State) (limit : TokenLimit) (windowStart now : ℤ) : Option ℕ :=
  ((s.cache.get limit.id).filter fun cached =>
    decide (cached.windowStart = windowStart ∧ now - cached.syncedAt < cacheTtlMs)).map
      (·.tokensUsed)

/-- The counters after a read of the database. -/
def State.readCounters (s : State) (limit : TokenLimit) (windowStart : ℤ) : Counters :=
  if getWindowUsage s.counters limit.id windowStart = 0 ∧ s.cachedWindow limit windowStart = false
  then seedCounter limit windowStart s.usageHistory s.counters
  else s.counters

def getCurrentWindowUsage (limit : TokenLimit) (now : ℤ) (forceFresh : Bool) (s : State) :
    ℕ × State :=
  let windowStart := cfg.windowStart limit now
  match if forceFresh then none else s.freshCache limit windowStart now with
  | some tokensUsed => (tokensUsed, s)
  | none =>
    let counters := s.readCounters limit windowStart
    let dbUsage := getWindowUsage counters limit.id windowStart
    (dbUsage, { s with
      counters := counters
      cache := s.cache.set limit.id ⟨windowStart, dbUsage, now⟩ })

/-- One limit's part of the transaction of `recordTokenUsage`. -/
def recordLimit (limit : TokenLimit) (windowStart : ℤ) (delta : ℕ) (usageHistory : List Request)
    (counters : Counters) : Counters :=
  incrementWindowTokens limit.id windowStart delta
    (match counters.get (limit.id, windowStart) with
    | some _ => counters
    | none => seedCounter limit windowStart usageHistory counters)

/-- The transaction over all limits of the request; the second part is what the cache gets. -/
def recordLimits (now : ℤ) (delta : ℕ) (usageHistory : List Request) :
    List TokenLimit → Counters → Counters × List (String × CacheEntry)
  | [], counters => (counters, [])
  | limit :: limits, counters =>
    if limit.enabled = false then recordLimits now delta usageHistory limits counters
    else
      let windowStart := cfg.windowStart limit now
      let counters := recordLimit limit windowStart delta usageHistory counters
      let rest := recordLimits now delta usageHistory limits counters
      (rest.1, (limit.id, ⟨windowStart, getWindowUsage counters limit.id windowStart, now⟩) ::
        rest.2)

/-- The deferred part of `recordTokenUsage`, run at `now` with the request's billable tokens. -/
def recordTokenUsage (now : ℤ) (r : Request) (s : State) : State :=
  if r.apiKeyId = "" ∨ r.billable = 0 then s
  else
    let recorded := recordLimits cfg now r.billable s.usageHistory (cfg.getTokenLimitsForRequest r)
      s.counters
    { s with
      counters := recorded.1
      cache := recorded.2.foldl (fun cache p => cache.set p.1 p.2) s.cache }

def insertRow (r : Request) (s : State) : State :=
  { s with usageHistory := s.usageHistory ++ [r] }

/-! ## What the operations do to one counter -/

variable {cfg} {counters : Counters} {limit : TokenLimit} {windowStart : ℤ} {tokens : ℕ}
  {usageHistory : List Request}

theorem getWindowUsage_increment :
    getWindowUsage (incrementWindowTokens limit.id windowStart tokens counters) limit.id
      windowStart = getWindowUsage counters limit.id windowStart + tokens := by
  simp [getWindowUsage, incrementWindowTokens]

variable {limitId : String}

theorem get_increment_ne {start : ℤ} (h : (limitId, start) ≠ (limit.id,
    windowStart)) :
    (incrementWindowTokens limit.id windowStart tokens counters).get (limitId, start) =
      counters.get (limitId, start) := by
  rw [incrementWindowTokens, OrdMap.get_set_ne _ h]

theorem getWindowUsage_seedCounter :
    getWindowUsage (seedCounter limit windowStart usageHistory counters) limit.id windowStart =
      getWindowUsage counters limit.id windowStart +
        seedWindowUsageFromHistory limit windowStart usageHistory := by
  rw [seedCounter]
  split
  · exact getWindowUsage_increment
  · next h => rw [Nat.eq_zero_of_not_pos h, Nat.add_zero]

theorem get_seedCounter_ne {start : ℤ} (h : (limitId, start) ≠ (limit.id,
    windowStart)) :
    (seedCounter limit windowStart usageHistory counters).get (limitId, start) =
      counters.get (limitId, start) := by
  rw [seedCounter]
  split
  · exact get_increment_ne h
  · rfl

/-- What a missing counter is seeded with. -/
def seedIfCold (limit : TokenLimit) (windowStart : ℤ) (usageHistory : List Request)
    (counters : Counters) : ℕ :=
  if counters.get (limit.id, windowStart) = none then
    seedWindowUsageFromHistory limit windowStart usageHistory
  else 0

theorem getWindowUsage_recordLimit {delta : ℕ} :
    getWindowUsage (recordLimit limit windowStart delta usageHistory counters) limit.id
      windowStart = getWindowUsage counters limit.id windowStart +
        seedIfCold limit windowStart usageHistory counters + delta := by
  rw [recordLimit, getWindowUsage_increment, seedIfCold]
  cases h : counters.get (limit.id, windowStart) with
  | none => simp [getWindowUsage_seedCounter]
  | some used => simp

theorem get_recordLimit_ne {start : ℤ} {delta : ℕ}
    (h : (limitId, start) ≠ (limit.id, windowStart)) :
    (recordLimit limit windowStart delta usageHistory counters).get (limitId, start) =
      counters.get (limitId, start) := by
  rw [recordLimit, get_increment_ne h]
  split
  · rfl
  · exact get_seedCounter_ne h

/-- A limit that is not recorded keeps its counters. -/
theorem get_recordLimits_of_not_mem {now : ℤ} {delta : ℕ} {limits : List TokenLimit} {start : ℤ}
    (h : ∀ l ∈ limits, l.id = limitId → cfg.windowStart l now ≠ start) :
    (recordLimits cfg now delta usageHistory limits counters).1.get (limitId, start) =
      counters.get (limitId, start) := by
  induction limits generalizing counters with
  | nil => rfl
  | cons l ls ih =>
    have hls : ∀ l ∈ ls, l.id = limitId → cfg.windowStart l now ≠ start :=
      fun l hl => h l (List.mem_cons_of_mem _ hl)
    rw [recordLimits]
    split
    · exact ih hls
    · rw [ih hls, get_recordLimit_ne]
      rintro ⟨rfl, rfl⟩
      exact h l List.mem_cons_self rfl rfl

/-- A recorded limit's counter gets its seed, if it is cold, and the request's tokens. -/
theorem getWindowUsage_recordLimits {now : ℤ} {delta : ℕ} {limits : List TokenLimit}
    (hnodup : (limits.map (·.id)).Nodup) (hmem : limit ∈ limits) (henabled : limit.enabled = true) :
    getWindowUsage (recordLimits cfg now delta usageHistory limits counters).1 limit.id
      (cfg.windowStart limit now) = getWindowUsage counters limit.id (cfg.windowStart limit now) +
        seedIfCold limit (cfg.windowStart limit now) usageHistory counters + delta := by
  induction limits generalizing counters with
  | nil => cases hmem
  | cons l ls ih =>
    rw [List.map_cons, List.nodup_cons] at hnodup
    obtain ⟨hfresh, hnodup⟩ := hnodup
    have hother : ∀ l' ∈ ls, l'.id ≠ l.id :=
      fun l' hl' heq => hfresh (heq ▸ List.mem_map_of_mem hl')
    rw [recordLimits]
    obtain rfl | hmem := List.mem_cons.1 hmem
    · rw [if_neg (by simp [henabled]), ← getWindowUsage_recordLimit, getWindowUsage,
        get_recordLimits_of_not_mem fun l' hl' heq => absurd heq (hother l' hl')]
      rfl
    · split
      · exact ih hnodup hmem
      · have hne : (limit.id, cfg.windowStart limit now) ≠ (l.id, cfg.windowStart l now) :=
          fun heq => hother limit hmem (Prod.ext_iff.1 heq).1
        rw [ih hnodup hmem, getWindowUsage, getWindowUsage, seedIfCold, seedIfCold,
          get_recordLimit_ne hne]

end OmniRoute.TokenLimits
