import OmniRoute.Lib.Delimited
import OmniRoute.Lib.OrdMap

/-!
# The two quota stores

`SqliteQuotaStore` (`sqliteQuotaStore.ts`, `db/quotaConsumption.ts`) and `RedisQuotaStore`
(`redisQuotaStore.ts`) count what an API key consumes of a dimension of a pool, in buckets as
long as the window. SQLite keeps a row for each key, dimension and bucket; Redis keeps a counter
with a time to live under a key that is a text.

Amounts are taken from an ordered field, so sums are exact. An API key is named by a UUID, which
contains no colon.
-/

namespace OmniRoute

inductive QuotaUnit
  | percent
  | requests
  | tokens
  | usd
  deriving DecidableEq

inductive QuotaWindow
  | fiveHours
  | hourly
  | daily
  | weekly
  | monthly
  deriving DecidableEq

def QuotaUnit.text : QuotaUnit → String
  | .percent => "percent"
  | .requests => "requests"
  | .tokens => "tokens"
  | .usd => "usd"

def QuotaWindow.text : QuotaWindow → String
  | .fiveHours => "5h"
  | .hourly => "hourly"
  | .daily => "daily"
  | .weekly => "weekly"
  | .monthly => "monthly"

structure DimensionKey where
  poolId : String
  unit : QuotaUnit
  window : QuotaWindow
  deriving DecidableEq

/-- `WINDOW_MS` -/
def windowMs : QuotaWindow → ℤ
  | .hourly => 60 * 60 * 1000
  | .fiveHours => 5 * 60 * 60 * 1000
  | .daily => 24 * 60 * 60 * 1000
  | .weekly => 7 * 24 * 60 * 60 * 1000
  | .monthly => 30 * 24 * 60 * 60 * 1000

def dimensionKeyToString (k : DimensionKey) : String :=
  k.poolId ++ ":" ++ k.unit.text ++ ":" ++ k.window.text

/-- The id of an API key, a UUID. -/
abbrev ApiKeyId := { id : String // ':' ∉ id.toList }

/-- The API keys with an allocation in a pool; the primary key of the table allows one each. -/
abbrev Allocations := { apiKeyIds : List ApiKeyId // apiKeyIds.Nodup }

section

variable {K : Type} [Field K]

/-- The sliding window over two buckets, in both stores. -/
def slidingWindowEffective (curr prev : K) (nowMs windowMs : ℤ) : K :=
  let currentBucketIndex := nowMs / windowMs
  let currentBucketStartMs := currentBucketIndex * windowMs
  let elapsed := nowMs - currentBucketStartMs
  let weight := 1 - (elapsed : K) / (windowMs : K)
  prev * weight + curr

/-! ## SQLite -/

/-- A row of `quota_consumption`. The column `updated_at` matters to the GC only, and so does the
window, which is not a column. -/
structure ConsumptionRow (K : Type) where
  consumed : K
  updatedAt : ℤ
  windowMs : ℤ

/-- The table `quota_consumption` by its primary key. -/
abbrev QuotaConsumption (K : Type) := OrdMap (ApiKeyId × String × ℤ) (ConsumptionRow K)

namespace QuotaConsumption

def getBucket (rows : QuotaConsumption K) (apiKeyId : ApiKeyId) (dimensionKey : String)
    (bucketIndex : ℤ) : K :=
  ((rows.get (apiKeyId, dimensionKey, bucketIndex)).map ConsumptionRow.consumed).getD 0

def incrementBucket (rows : QuotaConsumption K) (apiKeyId : ApiKeyId) (dimensionKey : String)
    (bucketIndex : ℤ) (delta : K) (nowMs windowMs : ℤ) : QuotaConsumption K :=
  rows.set (apiKeyId, dimensionKey, bucketIndex)
    { consumed := rows.getBucket apiKeyId dimensionKey bucketIndex + delta
      updatedAt := nowMs
      windowMs }

/-- The two sums of `sumPoolDimension`, of which this is one. -/
def sumBucket (rows : QuotaConsumption K) (dimensionKey : String) (bucketIndex : ℤ) : K :=
  rows.tally fun row => if row.1.2 = (dimensionKey, bucketIndex) then row.2.consumed else 0

/-- `DELETE FROM quota_consumption WHERE updated_at < ?` -/
def gc (rows : QuotaConsumption K) (maxUpdatedAtMs : ℤ) : QuotaConsumption K :=
  OrdMap.filter (fun row => maxUpdatedAtMs ≤ row.2.updatedAt) rows

end QuotaConsumption

namespace SqliteQuotaStore

def consume (rows : QuotaConsumption K) (apiKeyId : ApiKeyId) (dim : DimensionKey) (cost : K)
    (nowMs : ℤ) : QuotaConsumption K × K :=
  let dimKey := dimensionKeyToString dim
  let windowMs := windowMs dim.window
  let currentBucket := nowMs / windowMs
  let rows := rows.incrementBucket apiKeyId dimKey currentBucket cost nowMs windowMs
  let curr := rows.getBucket apiKeyId dimKey currentBucket
  let prev := rows.getBucket apiKeyId dimKey (currentBucket - 1)
  (rows, slidingWindowEffective curr prev nowMs windowMs)

def peek (rows : QuotaConsumption K) (apiKeyId : ApiKeyId) (dim : DimensionKey) (nowMs : ℤ) : K :=
  let dimKey := dimensionKeyToString dim
  let windowMs := windowMs dim.window
  let currentBucket := nowMs / windowMs
  let curr := rows.getBucket apiKeyId dimKey currentBucket
  let prev := rows.getBucket apiKeyId dimKey (currentBucket - 1)
  slidingWindowEffective curr prev nowMs windowMs

/-- The code takes the pool's id as well and does not use it. -/
def poolConsumedTotal (rows : QuotaConsumption K) (dim : DimensionKey) (nowMs : ℤ) : K :=
  let dimKey := dimensionKeyToString dim
  let windowMs := windowMs dim.window
  let currentBucket := nowMs / windowMs
  let currTotal := rows.sumBucket dimKey currentBucket
  let prevTotal := rows.sumBucket dimKey (currentBucket - 1)
  slidingWindowEffective currTotal prevTotal nowMs windowMs

end SqliteQuotaStore

/-! ## Redis -/

/-- A counter, and when it expires. -/
structure RedisCounter (K : Type) where
  value : K
  expireAtMs : Option ℤ

abbrev RedisDb (K : Type) := OrdMap String (RedisCounter K)

namespace RedisDb

/-- The counter under a key, unless it has expired. -/
def lookup (db : RedisDb K) (key : String) (nowMs : ℤ) : Option (RedisCounter K) :=
  (db.get key).filter fun counter => counter.expireAtMs.all (nowMs < ·)

/-- `INCRBYFLOAT` starts a missing counter at zero and keeps the time to live of another. -/
def incrbyfloat (db : RedisDb K) (key : String) (value : K) (nowMs : ℤ) : RedisDb K × K :=
  match db.lookup key nowMs with
  | none => (db.set key ⟨value, none⟩, value)
  | some counter => (db.set key { counter with value := counter.value + value },
      counter.value + value)

/-- `EXPIRE` does nothing to a missing counter. -/
def expire (db : RedisDb K) (key : String) (seconds nowMs : ℤ) : RedisDb K :=
  match db.lookup key nowMs with
  | none => db
  | some counter => db.set key { counter with expireAtMs := some (nowMs + seconds * 1000) }

/-- A value of `MGET`, read by `parseFloat(value ?? "0") || 0`. -/
def read (db : RedisDb K) (key : String) (nowMs : ℤ) : K :=
  ((db.lookup key nowMs).map RedisCounter.value).getD 0

end RedisDb

namespace RedisQuotaStore

/-- `KEY_PREFIX`, with no `REDIS_KEY_PREFIX` set. -/
def keyPrefix : String := "omniroute:quota"

def bucketKey (apiKeyId : ApiKeyId) (dimensionKey : String) (bucketIndex : ℤ) : String :=
  keyPrefix ++ ":" ++ apiKeyId.1 ++ ":" ++ dimensionKey ++ ":" ++ toString bucketIndex

/-- `Math.ceil((2 * windowMs) / 1000)` -/
def ttlSeconds (windowMs : ℤ) : ℤ := -(-(2 * windowMs) / 1000)

def consume (db : RedisDb K) (apiKeyId : ApiKeyId) (dim : DimensionKey) (cost : K) (nowMs : ℤ) :
    RedisDb K × K :=
  let dimKey := dimensionKeyToString dim
  let windowMs := windowMs dim.window
  let currentBucket := nowMs / windowMs
  let currKey := bucketKey apiKeyId dimKey currentBucket
  let prevKey := bucketKey apiKeyId dimKey (currentBucket - 1)
  let ttl := ttlSeconds windowMs
  let (db, newCurr) := db.incrbyfloat currKey cost nowMs
  let db := (db.expire currKey ttl nowMs).expire prevKey ttl nowMs
  let prev := db.read prevKey nowMs
  (db, slidingWindowEffective newCurr prev nowMs windowMs)

def peek (db : RedisDb K) (apiKeyId : ApiKeyId) (dim : DimensionKey) (nowMs : ℤ) : K :=
  let dimKey := dimensionKeyToString dim
  let windowMs := windowMs dim.window
  let currentBucket := nowMs / windowMs
  let curr := db.read (bucketKey apiKeyId dimKey currentBucket) nowMs
  let prev := db.read (bucketKey apiKeyId dimKey (currentBucket - 1)) nowMs
  slidingWindowEffective curr prev nowMs windowMs

/-- The pool is given by its allocations, and is `none` if it does not exist. -/
def poolConsumedTotal (db : RedisDb K) (pool : Option Allocations) (dim : DimensionKey)
    (nowMs : ℤ) : K :=
  match pool with
  | none => 0
  | some ⟨allocations, _⟩ =>
    if allocations.length = 0 then 0
    else
      let dimKey := dimensionKeyToString dim
      let windowMs := windowMs dim.window
      let currentBucket := nowMs / windowMs
      let currTotal := (allocations.map fun apiKeyId =>
        db.read (bucketKey apiKeyId dimKey currentBucket) nowMs).sum
      let prevTotal := (allocations.map fun apiKeyId =>
        db.read (bucketKey apiKeyId dimKey (currentBucket - 1)) nowMs).sum
      slidingWindowEffective currTotal prevTotal nowMs windowMs

end RedisQuotaStore

/-! ## A common run -/

/-- Both stores after the same operations. -/
structure QuotaStores (K : Type) where
  now : ℤ
  /-- `getPool` -/
  pool : String → Option Allocations
  rows : QuotaConsumption K
  redis : RedisDb K

inductive QuotaStoreEvent (K : Type)
  /-- The clock advances. -/
  | clock (now : ℤ)
  | consume (apiKeyId : ApiKeyId) (dim : DimensionKey) (cost : K)
  /-- `upsertAllocations` writes the allocations of the pools of a group. -/
  | upsertAllocations (poolIds : List String) (allocations : Allocations)
  /-- The rows last written before the time are deleted. -/
  | gc (maxUpdatedAtMs : ℤ)

namespace QuotaStores

variable [LinearOrder K]

/-- `recordConsumption` consumes positive costs only, and the GC spares the rows younger than two
windows. -/
def step (s : QuotaStores K) : QuotaStoreEvent K → Option (QuotaStores K)
  | .clock now => if s.now ≤ now then some { s with now } else none
  | .consume apiKeyId dim cost =>
    if 0 < cost then
      some { s with
        rows := (SqliteQuotaStore.consume s.rows apiKeyId dim cost s.now).1
        redis := (RedisQuotaStore.consume s.redis apiKeyId dim cost s.now).1 }
    else none
  | .upsertAllocations poolIds allocations =>
    some { s with pool := fun poolId =>
      if poolId ∈ poolIds then (s.pool poolId).map fun _ => allocations else s.pool poolId }
  | .gc maxUpdatedAtMs =>
    if ∀ row ∈ s.rows.entries, row.2.updatedAt < maxUpdatedAtMs →
        row.2.updatedAt + 2 * row.2.windowMs ≤ s.now then
      some { s with rows := s.rows.gc maxUpdatedAtMs }
    else none

/-- Empty counters. -/
def start (now : ℤ) (pool : String → Option Allocations) : QuotaStores K :=
  ⟨now, pool, .empty, .empty⟩

/-- What the stores return for a key, and for a pool, is the same. -/
def Agree (s : QuotaStores K) : Prop :=
  (∀ apiKeyId dim, SqliteQuotaStore.peek s.rows apiKeyId dim s.now =
    RedisQuotaStore.peek s.redis apiKeyId dim s.now) ∧
  ∀ dim, s.pool dim.poolId ≠ none → SqliteQuotaStore.poolConsumedTotal s.rows dim s.now =
    RedisQuotaStore.poolConsumedTotal s.redis (s.pool dim.poolId) dim s.now

/-- Only the API keys of a pool consume of it, and none that still counts is removed. -/
def KeepsMembers (s : QuotaStores K) : QuotaStoreEvent K → Prop
  | .consume apiKeyId dim _ =>
    ∀ allocations, s.pool dim.poolId = some allocations → apiKeyId ∈ allocations.1
  | .upsertAllocations poolIds allocations =>
    ∀ dim : DimensionKey, dim.poolId ∈ poolIds → ∀ old, s.pool dim.poolId = some old →
      ∀ apiKeyId ∈ old.1, apiKeyId ∉ allocations.1 →
        SqliteQuotaStore.peek s.rows apiKeyId dim s.now = 0
  | _ => True

end QuotaStores

end
end OmniRoute
