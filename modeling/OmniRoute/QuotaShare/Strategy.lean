import OmniRoute.QuotaShare.Inflight

/-!
# The quota-share selection

`selectQuotaShareTarget` of `open-sse/services/combo/quotaShareStrategy.ts`: the saturation gate
over the buckets of `src/lib/quota/accountBuckets.ts`, the concurrency gate, the deficit round
robin and the power of two choices over the requests in flight.

Of a target the selection reads its execution key, its connection and its weight. Deficits and
weights are exact rationals; a weight that is absent or not finite is `none`, and so is a cap that
is `null` or not finite. Reading a bucket or a count retires what has expired, so the gates pass the
two stores on.
-/

namespace OmniRoute.QuotaShareStrategy

structure ResolvedComboTarget where
  executionKey : String
  connectionId : Option String
  weight : Option ℚ
  deriving DecidableEq

/-- `target.connectionId ?? ""` -/
def ResolvedComboTarget.connection (t : ResolvedComboTarget) : String := t.connectionId.getD ""

/-! ## Saturated buckets -/

structure BucketEntry where
  saturated : Bool
  /-- Zero when the reset instant is unknown. -/
  resetsAtMs : ℤ

/-- `_buckets` -/
abbrev Buckets := OrdMap String BucketEntry

def storeKey (connectionId windowKey : String) : String := connectionId ++ "::" ++ windowKey

/-- The entry is reset once its window has rolled over. -/
def isBucketSaturated (m : Buckets) (connectionId windowKey : String) (nowMs : ℤ) :
    Buckets × Bool :=
  if connectionId = "" ∨ windowKey = "" then (m, false)
  else
    match m.get (storeKey connectionId windowKey) with
    | none => (m, false)
    | some entry =>
      if 0 < entry.resetsAtMs ∧ entry.resetsAtMs ≤ nowMs then
        (m.delete (storeKey connectionId windowKey), false)
      else (m, entry.saturated)

/-- The name behind `<provider>/`. -/
def bareModelName (modelStr : String) : String :=
  match modelStr.toList.dropWhile (· ≠ '/') with
  | [] => modelStr
  | _ :: name => String.ofList name

/-- The condition `saturated` of `filterEligibleBySaturation`. -/
def isSaturated (m : Buckets) (modelName : String) (nowMs : ℤ) (t : ResolvedComboTarget) :
    Buckets × Bool :=
  if t.connection = "" then (m, false)
  else
    let (m, fiveHours) := isBucketSaturated m t.connection "5h" nowMs
    if fiveHours then (m, true)
    else
      let (m, sevenDays) := isBucketSaturated m t.connection "7d" nowMs
      if sevenDays then (m, true)
      else if modelName = "" then (m, false)
      else isBucketSaturated m t.connection ("7d:" ++ modelName) nowMs

/-- `targets.filter` of `filterEligibleBySaturation`. -/
def filterUnsaturated (modelName : String) (nowMs : ℤ) :
    Buckets → List ResolvedComboTarget → Buckets × List ResolvedComboTarget
  | m, [] => (m, [])
  | m, t :: ts =>
    let (m, saturated) := isSaturated m modelName nowMs t
    let (m, eligible) := filterUnsaturated modelName nowMs m ts
    (m, if saturated then eligible else t :: eligible)

def filterEligibleBySaturation (m : Buckets) (targets : List ResolvedComboTarget)
    (modelStr : String) (nowMs : ℤ) : Buckets × List ResolvedComboTarget :=
  let (m, eligible) := filterUnsaturated (bareModelName modelStr) nowMs m targets
  (m, if 0 < eligible.length then eligible else targets)

/-! ## Concurrency caps -/

/-- `maxConcurrentByConnection` -/
abbrev Caps := OrdMap String (Option ℚ)

def resolveConnectionCap (connectionId : String) (caps : Option Caps) : Option ℚ :=
  if connectionId = "" then none
  else
    match caps with
    | none => none
    | some caps =>
      match caps.get connectionId with
      | some (some cap) => if cap ≤ 0 then none else some cap
      | _ => none

/-- The loop of `partitionByConcurrencyCap`. -/
def splitByCap (caps : Option Caps) (nowMs : ℤ) : InflightMap → List ResolvedComboTarget →
    InflightMap × List ResolvedComboTarget × List ResolvedComboTarget
  | inflight, [] => (inflight, [], [])
  | inflight, t :: ts =>
    match resolveConnectionCap t.connection caps with
    | none =>
      let (inflight, withRoom, atCap) := splitByCap caps nowMs inflight ts
      (inflight, t :: withRoom, atCap)
    | some cap =>
      let (inflight, count) := inflight.getInflight t.connection nowMs
      let (inflight, withRoom, atCap) := splitByCap caps nowMs inflight ts
      if cap ≤ (count : ℚ) then (inflight, withRoom, t :: atCap)
      else (inflight, t :: withRoom, atCap)

/-- The targets with room, and those at their cap. -/
def partitionByConcurrencyCap (inflight : InflightMap) (targets : List ResolvedComboTarget)
    (caps : Option Caps) (nowMs : ℤ) :
    InflightMap × List ResolvedComboTarget × List ResolvedComboTarget :=
  if caps.all fun caps => caps.size = 0 then (inflight, targets, [])
  else
    let (inflight, withRoom, atCap) := splitByCap caps nowMs inflight targets
    if withRoom.length = 0 then (inflight, targets, []) else (inflight, withRoom, atCap)

/-! ## Deficit round robin -/

/-- The deficits of a combo, by execution key. -/
abbrev Deficits := OrdMap String ℚ

/-- `_drrState` -/
abbrev DrrState := OrdMap String Deficits

/-- `MAX_DRR_COMBOS` -/
def maxDrrCombos : ℕ := 200

/-- The state has an entry for the combo afterwards; the oldest is evicted to make room. -/
def getDrrDeficits (state : DrrState) (comboName : String) : DrrState × Deficits :=
  match state.get comboName with
  | some deficits => (state, deficits)
  | none =>
    let state :=
      if maxDrrCombos ≤ state.size then
        match state.keys.head? with
        | some oldestKey => state.delete oldestKey
        | none => state
      else state
    (state.set comboName .empty, .empty)

def normalizeWeight (weight : Option ℚ) : ℚ :=
  match weight with
  | none => 1
  | some w => if w = 0 then 0 else if 0 < w then w else 1

def totalWeight (targets : List ResolvedComboTarget) : ℚ :=
  targets.foldl (fun sum t => sum + normalizeWeight t.weight) 0

/-- `deficits.get(key) ?? 0` -/
def Deficits.credit (deficits : Deficits) (executionKey : String) : ℚ :=
  (deficits.get executionKey).getD 0

/-- Every target gains its share of the round. -/
def addQuanta (totalWeight : ℚ) (deficits : Deficits) (targets : List ResolvedComboTarget) :
    Deficits :=
  targets.foldl (fun deficits t => deficits.set t.executionKey
    (deficits.credit t.executionKey + normalizeWeight t.weight / totalWeight)) deficits

/-- The first of the targets with the largest deficit, searched behind `winner`. -/
def largestDeficit (deficits : Deficits) :
    ResolvedComboTarget → List ResolvedComboTarget → ResolvedComboTarget
  | winner, [] => winner
  | winner, t :: ts =>
    largestDeficit deficits
      (if deficits.credit winner.executionKey < deficits.credit t.executionKey then t else winner) ts

def applyDrr (state : DrrState) (targets : List ResolvedComboTarget) (comboName : String) :
    DrrState × List ResolvedComboTarget :=
  match targets with
  | [] => (state, [])
  | [t] => (state, [t])
  | first :: second :: others =>
    let (state, deficits) := getDrrDeficits state comboName
    let total := totalWeight targets
    if total ≤ 0 then (state, targets)
    else
      let deficits := addQuanta total deficits targets
      let winner := largestDeficit deficits first (second :: others)
      let deficits := deficits.set winner.executionKey (deficits.credit winner.executionKey - 1)
      (state.set comboName deficits,
        winner :: targets.filter fun t => t.executionKey ≠ winner.executionKey)

/-! ## The selection -/

/-- Whether the second candidate has fewer requests in flight. -/
def pickByInflightP2C (inflight : InflightMap) (first second : ResolvedComboTarget) (nowMs : ℤ) :
    InflightMap × Bool :=
  let (inflight, loadFirst) := inflight.getInflight first.connection nowMs
  let (inflight, loadSecond) := inflight.getInflight second.connection nowMs
  (inflight, loadSecond < loadFirst)

/-- The state the selections share. -/
structure State where
  drr : DrrState
  buckets : Buckets
  inflight : InflightMap

/-- A result of `selectQuotaShareTarget`; what its callback holds is a `QuotaShareSelection`. -/
structure QuotaShareResult where
  target : Option ResolvedComboTarget
  orderedTargets : List ResolvedComboTarget

/-- The candidate kept of the first two, and the others. -/
def chooseOfTwo (inflight : InflightMap) (ordered : List ResolvedComboTarget) (nowMs : ℤ) :
    InflightMap × List ResolvedComboTarget :=
  match ordered with
  | first :: second :: others =>
    let (inflight, preferSecond) := pickByInflightP2C inflight first second nowMs
    (inflight, if preferSecond then second :: first :: others else ordered)
  | _ => (inflight, ordered)

def selectQuotaShareTarget (s : State) (targets : List ResolvedComboTarget)
    (comboName modelStr : String) (nowMs : ℤ) (caps : Option Caps) : State × QuotaShareResult :=
  if targets.length = 0 then (s, ⟨none, []⟩)
  else
    let (buckets, eligible) := filterEligibleBySaturation s.buckets targets modelStr nowMs
    let saturatedDeprioritized := targets.filter fun t => t ∉ eligible
    let (inflight, withRoom, atCap) := partitionByConcurrencyCap s.inflight eligible caps nowMs
    let (drr, ordered) := applyDrr s.drr withRoom comboName
    let (inflight, chosen) := chooseOfTwo inflight ordered nowMs
    match chosen with
    | [] => (⟨drr, buckets, inflight⟩, ⟨none, []⟩)
    | winner :: rest =>
      let inflight :=
        if winner.connection = "" then inflight
        else (inflight.incrementInflight winner.connection defaultLeaseMs nowMs).1
      (⟨drr, buckets, inflight⟩,
        ⟨some winner, winner :: rest ++ atCap ++ saturatedDeprioritized⟩)

end OmniRoute.QuotaShareStrategy
