import OmniRoute.Lib.OrdMap
import OmniRoute.Lib.Trace

/-!
# The quota cache and its snapshots

`domain/quotaCache.ts` with `lib/db/quotaSnapshots.ts`, for one connection: the entry of the cache is
replaced by each report of the provider, and a row is appended for each window that changed. When
the cache is lost, the entry is rebuilt from the latest row of each window.

What the code asks its surroundings is a `Platform`. Times are in milliseconds. The values of a
report that are no objects are left out here, as both loops of the code pass them over.
-/

namespace OmniRoute.QuotaCache

/-! ## Data -/

structure Platform where
  parseDate : String → Option ℤ
  toLowerCase : String → String
  /-- `localeCompare` is not positive. -/
  collates : String → String → Bool
  /-- The order in which the query returns the windows. -/
  rowOrder : List String → List String

structure QuotaInfo where
  remainingPercentage : ℚ
  resetAt : Option String
  fractionReported : Option Bool := none
  deriving DecidableEq

structure QuotaCacheEntry where
  provider : String
  quotas : OrdMap String QuotaInfo
  fetchedAt : ℤ
  exhausted : Bool
  nextResetAt : Option String

/-- A window as the provider reports it; a percentage that is not finite is none. -/
structure RawQuota where
  remainingPercentage : Option ℚ := none
  total : Option ℚ := none
  used : Option ℚ := none
  resetAt : Option String := none
  fractionReported : Option Bool := none

structure SnapshotRow where
  provider : String
  windowKey : String
  remainingPercentage : ℚ
  isExhausted : Bool
  nextResetAt : Option String
  createdAt : ℤ

structure QuotaWindowStatus where
  remainingPercentage : ℚ
  usedPercentage : ℚ
  resetAt : Option String
  reachedThreshold : Bool
  deriving DecidableEq

/-- `EXHAUSTED_TTL_MS` -/
def exhaustedTtlMs : ℤ := 5 * 60 * 1000

/-- A text that is null or empty is none. -/
def truthy (text : Option String) : Option String := text.filter (· ≠ "")

def clampPercent (value : ℚ) : ℚ := max 0 (min 100 value)

/-! ## Reading an entry -/

section Platform

variable (P : Platform)

def isExhausted (quotas : OrdMap String QuotaInfo) : Bool :=
  !quotas.values.isEmpty && quotas.values.all fun q =>
    q.fractionReported ≠ some false && q.remainingPercentage ≤ 0

/-- The time of a reset, if there is one that parses. -/
def resetMs (resetAt : Option String) : Option ℤ := (truthy resetAt).bind P.parseDate

/-- The step of the loop: the first of the earliest reset times. -/
def earlier (earliest : Option (String × ℤ)) (q : QuotaInfo) : Option (String × ℤ) :=
  match q.resetAt, resetMs P q.resetAt with
  | some resetAt, some ms =>
    if earliest.all fun found => ms < found.2 then some (resetAt, ms) else earliest
  | _, _ => earliest

def earliestResetAt (quotas : OrdMap String QuotaInfo) : Option String :=
  (quotas.values.foldl (earlier P) none).map Prod.fst

def normalizeWindowKey (value : String) : String :=
  let words := (P.toLowerCase value).toList.splitOnP fun c => !(c.isLower || c.isDigit)
  String.ofList ([' '].intercalate (words.filter (· ≠ [])))

/-- The quota of a window: by its name, by its normalised name, or else the first one whose
normalised name continues it. -/
def resolveQuotaWindow {ν : Type} (quotas : OrdMap String ν) (windowName : String) : Option ν :=
  match quotas.get windowName with
  | some direct => some direct
  | none =>
    let target := normalizeWindowKey P windowName
    if target = "" then none
    else
      match quotas.entries.find? fun entry => normalizeWindowKey P entry.1 = target with
      | some entry => some entry.2
      | none =>
        let prefixMatches := quotas.entries.filter fun entry =>
          (target.toList ++ [' ']).isPrefixOf (normalizeWindowKey P entry.1).toList
        ((prefixMatches.mergeSort fun a b => P.collates a.1 b.1).head?).map Prod.snd

def advancedWindowResetAt (entry : QuotaCacheEntry) (now : ℤ) : Bool :=
  match resetMs P entry.nextResetAt with
  | some ms => ms ≤ now
  | none => false

/-- The answer for the entry that is found, and the entry after it. -/
def isAccountQuotaExhausted (entry : Option QuotaCacheEntry) (now : ℤ) :
    Option QuotaCacheEntry × Bool :=
  match entry with
  | none => (none, false)
  | some entry =>
    if !entry.exhausted then (some entry, false)
    else if advancedWindowResetAt P entry now then (some { entry with exhausted := false }, false)
    else if truthy entry.nextResetAt = none ∧ exhaustedTtlMs < now - entry.fetchedAt then
      (some entry, false)
    else (some entry, true)

def windowStatus (window : QuotaInfo) (thresholdPercent : ℚ) (now : ℤ) : QuotaWindowStatus :=
  let remainingPercentage := clampPercent window.remainingPercentage
  let usedPercentage := clampPercent (100 - remainingPercentage)
  let windowExpired := (resetMs P window.resetAt).any fun ms => ms ≤ now
  { remainingPercentage
    usedPercentage
    resetAt := if windowExpired then none else truthy window.resetAt
    reachedThreshold :=
      if windowExpired || window.fractionReported = some false then false
      else if remainingPercentage ≤ 0 then true
      else thresholdPercent ≤ usedPercentage }

def getQuotaWindowStatus (entry : Option QuotaCacheEntry) (windowName : String)
    (thresholdPercent : ℚ) (now : ℤ) : Option QuotaWindowStatus :=
  (entry.bind fun entry => resolveQuotaWindow P entry.quotas windowName).map fun window =>
    windowStatus P window thresholdPercent now

end Platform

/-! ## Reports -/

/-- `safePercentage` of the reported percentage, or what the totals give. -/
def RawQuota.percentage (q : RawQuota) : ℚ :=
  q.remainingPercentage.getD
    (match q.total with
    | some total =>
      if 0 < total then (⌊(total - q.used.getD 0) / total * 100 + 1 / 2⌋ : ℤ) else 0
    | none => 0)

/-- One window of `normalizeQuotas`. -/
def RawQuota.normalize (q : RawQuota) : QuotaInfo where
  remainingPercentage := q.percentage
  resetAt := truthy q.resetAt
  fractionReported := if q.fractionReported = some false then some false else none

def normalizeQuotas (rawQuotas : OrdMap String RawQuota) : OrdMap String QuotaInfo where
  entries := rawQuotas.entries.map fun entry => (entry.1, entry.2.normalize)
  nodup := by
    rw [List.map_map]
    exact rawQuotas.nodup

def quotaSnapshotChanged (prior : Option QuotaCacheEntry) (windowKey : String)
    (remainingPercentage : ℚ) (exhausted : Bool) : Bool :=
  match prior with
  | none => true
  | some prior =>
    match prior.quotas.get windowKey with
    | none => true
    | some priorWindow =>
      priorWindow.remainingPercentage ≠ remainingPercentage || prior.exhausted != exhausted

/-- A call of `setQuotaCache`, and when it writes the row of a window if it does. -/
structure Report where
  provider : String
  now : ℤ
  rawQuotas : OrdMap String RawQuota
  writtenAt : String → ℤ

/-- The entry of the connection and its rows, the oldest first. -/
structure State where
  entry : Option QuotaCacheEntry
  rows : List SnapshotRow
  clock : ℤ

def State.start (clock : ℤ) : State := ⟨none, [], clock⟩

def Report.entry (P : Platform) (r : Report) : QuotaCacheEntry :=
  let quotas := normalizeQuotas r.rawQuotas
  let exhausted := isExhausted quotas
  { provider := r.provider
    quotas
    fetchedAt := r.now
    exhausted
    nextResetAt := if exhausted then earliestResetAt P quotas else none }

/-- Whether the row of a window is written. -/
def Report.writes (prior : Option QuotaCacheEntry) (windowKey : String) (q : RawQuota) : Bool :=
  quotaSnapshotChanged prior windowKey q.percentage (q.percentage ≤ 0)

def Report.row (r : Report) (windowKey : String) (q : RawQuota) : SnapshotRow where
  provider := r.provider
  windowKey
  remainingPercentage := q.percentage
  isExhausted := q.percentage ≤ 0
  nextResetAt := q.resetAt
  createdAt := r.writtenAt windowKey

def Report.rows (r : Report) (prior : Option QuotaCacheEntry) : List SnapshotRow :=
  (r.rawQuotas.entries.filter fun entry => Report.writes prior entry.1 entry.2).map fun entry =>
    r.row entry.1 entry.2

def setQuotaCache (P : Platform) (s : State) (r : Report) : State where
  entry := some (r.entry P)
  rows := s.rows ++ r.rows s.entry
  clock := (r.rawQuotas.keys.map r.writtenAt).foldl max r.now

/-- A report comes after the writes of the one before, and its own writes after its start. -/
def step (P : Platform) (s : State) (r : Report) : Option State :=
  if s.clock < r.now ∧ ∀ windowKey ∈ r.rawQuotas.keys, r.now ≤ r.writtenAt windowKey then
    some (setQuotaCache P s r)
  else none

/-! ## Hydration -/

/-- The latest row of a window; of two at the same time the one that was written last. -/
def latestRow (rows : List SnapshotRow) (windowKey : String) : Option SnapshotRow :=
  (rows.filter fun row => row.windowKey = windowKey).foldl (fun latest row =>
    if latest.any fun found => row.createdAt < found.createdAt then latest else some row) none

def getLatestQuotaSnapshots (P : Platform) (rows : List SnapshotRow) : List SnapshotRow :=
  (P.rowOrder (rows.map SnapshotRow.windowKey).dedup).filterMap (latestRow rows)

def SnapshotRow.quota (row : SnapshotRow) : QuotaInfo where
  remainingPercentage := clampPercent row.remainingPercentage
  resetAt := row.nextResetAt

/-- `hydrateQuotaCacheFromSnapshots`, at a time, when there is no entry. -/
def hydrate (P : Platform) (rows : List SnapshotRow) (now : ℤ) : Option QuotaCacheEntry :=
  let snapshots := (getLatestQuotaSnapshots P rows).filter fun row => row.windowKey ≠ ""
  let quotas := snapshots.foldl (fun quotas row => quotas.set row.windowKey row.quota) OrdMap.empty
  let fetchedAt := (snapshots.map SnapshotRow.createdAt).foldl max 0
  if quotas.keys = [] then none
  else
    let exhausted := isExhausted quotas
    some {
      provider := ((snapshots.map SnapshotRow.provider).find? (· ≠ "")).getD ""
      quotas
      fetchedAt := if fetchedAt = 0 then now else fetchedAt
      exhausted
      nextResetAt := if exhausted then earliestResetAt P quotas else none }

end OmniRoute.QuotaCache
