import OmniRoute.Lib.JsNumber

/-!
# The fair queue

`FairCostQueue` of `open-sse/services/admission/queue.ts`: one bucket of entries a tenant, served
round robin from a cursor. A head that does not fit is passed over; once it has been passed over
`maxUnfittableSkips` times it reserves the capacity, and nothing else is served until it fits.

The code keeps the tenants in an array `order` and their buckets in a map. Here each slot of
`order` holds its bucket. A bucket is deleted with its last entry, so it has a head.
-/

namespace OmniRoute

/-- After this many pass-overs a head that does not fit reserves the capacity. -/
def maxUnfittableSkips : ℕ := 2

structure QueueEntry (τ : Type) where
  id : ℕ
  tenantKey : String
  cost : ℤ
  enqueuedAtMs : ℤ
  deadlineMs : ℤ
  payload : τ
  skipCount : ℕ := 0
  deriving DecidableEq

/-- A slot of `order` with the bucket of its tenant. -/
structure Bucket (τ : Type) where
  tenant : String
  head : QueueEntry τ
  tail : List (QueueEntry τ)
  deriving DecidableEq

structure FairCostQueue (τ : Type) where
  maxCount : ℕ
  maxCost : ℤ
  buckets : List (Bucket τ)
  cursor : ℕ
  count : ℕ
  cost : ℤ
  deriving DecidableEq

variable {τ : Type}

/-- The entry without its skip count. -/
def QueueEntry.bare (e : QueueEntry τ) : QueueEntry τ := { e with skipCount := 0 }

/-- One more pass-over. -/
def QueueEntry.skip (e : QueueEntry τ) : QueueEntry τ := { e with skipCount := e.skipCount + 1 }

namespace Bucket

def entries (b : Bucket τ) : List (QueueEntry τ) := b.head :: b.tail

def ofEntries (tenant : String) : List (QueueEntry τ) → Option (Bucket τ)
  | [] => none
  | e :: es => some ⟨tenant, e, es⟩

/-- What stays of a bucket when its head is served. -/
def rest (b : Bucket τ) : List (Bucket τ) := (ofEntries b.tenant b.tail).toList

/-- The head has reserved the capacity. -/
def Reserves (b : Bucket τ) : Prop := maxUnfittableSkips ≤ b.head.skipCount

def skipHead (b : Bucket τ) : Bucket τ := { b with head := b.head.skip }

end Bucket

namespace FairCostQueue

/-- `new FairCostQueue(maxCount, maxCost)` -/
def new (maxCount : ℕ) (maxCost : ℤ) : FairCostQueue τ :=
  { maxCount, maxCost, buckets := [], cursor := 0, count := 0, cost := 0 }

/-- Costs are integers here, so `Number.isSafeInteger` only bounds them. -/
def canAccept (q : FairCostQueue τ) (entryCost : ℤ) : Bool :=
  decide (0 < entryCost ∧ entryCost ≤ maxSafeInteger) && !decide (q.maxCount ≤ q.count) &&
    !decide (q.maxCost - q.cost < entryCost)

/-- Put an entry at the end of its tenant's bucket, or of `order` in a bucket of its own. -/
def pushTo (entry : QueueEntry τ) : List (Bucket τ) → List (Bucket τ)
  | [] => [⟨entry.tenantKey, entry, []⟩]
  | b :: bs =>
    if b.tenant = entry.tenantKey then { b with tail := b.tail ++ [entry] } :: bs
    else b :: pushTo entry bs

/-- `none` when the entry is refused. -/
def enqueue (q : FairCostQueue τ) (entry : QueueEntry τ) : Option (FairCostQueue τ) :=
  if q.canAccept entry.cost then
    some { q with
      buckets := pushTo entry q.buckets
      count := q.count + 1
      cost := q.cost + entry.cost }
  else
    none

/-- The slots in the order in which a pass visits them. -/
def visits (q : FairCostQueue τ) : List ℕ :=
  (List.range q.buckets.length).map fun i => (q.cursor + i) % q.buckets.length

/-- One step of the first pass: keep the older of two heads that have reserved the capacity. -/
def reserve (found : Option (ℕ × QueueEntry τ)) (idx : ℕ) (entry : QueueEntry τ) :
    Option (ℕ × QueueEntry τ) :=
  if maxUnfittableSkips ≤ entry.skipCount then
    match found with
    | none => some (idx, entry)
    | some r => if entry.enqueuedAtMs < r.2.enqueuedAtMs then some (idx, entry) else some r
  else
    found

/-- The first pass: the oldest head that has reserved the capacity, with its slot. -/
def reserved (q : FairCostQueue τ) : Option (ℕ × QueueEntry τ) :=
  q.visits.foldl (fun found idx =>
    match q.buckets[idx]? with
    | none => found
    | some b => reserve found idx b.head) none

/-- The second pass: the first slot whose head fits, with the slots passed over before it. -/
def firstFitting (q : FairCostQueue τ) (maxCost : ℤ) (bypassed : List ℕ) :
    List ℕ → Option (ℕ × List ℕ)
  | [] => none
  | idx :: rest =>
    match q.buckets[idx]? with
    | none => firstFitting q maxCost bypassed rest
    | some b =>
      if maxCost < b.head.cost then firstFitting q maxCost (bypassed ++ [idx]) rest
      else some (idx, bypassed)

/-- Count a pass-over for the head of every slot of a list. -/
def skipSlots (q : FairCostQueue τ) (slots : List ℕ) : FairCostQueue τ :=
  { q with buckets := slots.foldl (fun bs idx => bs.modify idx Bucket.skipHead) q.buckets }

def takeAt (q : FairCostQueue τ) (idx : ℕ) : Option (QueueEntry τ × FairCostQueue τ) :=
  match q.buckets[idx]? with
  | none => none
  | some b =>
    let taken := { q with count := q.count - 1, cost := q.cost - b.head.cost }
    match Bucket.ofEntries b.tenant b.tail with
    | none =>
      let order := q.buckets.eraseIdx idx
      some (b.head.bare, { taken with
        buckets := order
        cursor := if order.length = 0 then 0 else idx % order.length })
    | some rest =>
      some (b.head.bare, { taken with
        buckets := q.buckets.set idx rest
        cursor := (idx + 1) % q.buckets.length })

/-- `none` when nothing is served; the queue is unchanged then. The capacity is an integer here:
the costs are, so a fraction of it makes no difference. -/
def dequeue (q : FairCostQueue τ) (maxCost : ℤ) : Option (QueueEntry τ × FairCostQueue τ) :=
  if q.count = 0 then none
  else
    match q.reserved with
    | some (idx, entry) => if maxCost < entry.cost then none else q.takeAt idx
    | none =>
      match q.firstFitting maxCost [] q.visits with
      | none => none
      | some (idx, bypassed) => (q.skipSlots bypassed).takeAt idx

/-- The first slot from `ti` on whose bucket holds `id`, with the bucket. -/
def findSlot (id : ℕ) : ℕ → List (Bucket τ) → Option (ℕ × Bucket τ)
  | _, [] => none
  | ti, b :: bs => if b.entries.any (·.id = id) then some (ti, b) else findSlot id (ti + 1) bs

/-- The cursor once slot `ti` has been spliced out of `order`, with `length` slots left. -/
def spliceCursor (cursor ti length : ℕ) : ℕ :=
  if length = 0 then 0
  -- the successor of a bucket before the cursor moves to `cursor - 1`
  else if ti < cursor then cursor - 1
  else if length ≤ cursor then 0
  else cursor

def removeById (q : FairCostQueue τ) (id : ℕ) : Option (QueueEntry τ × FairCostQueue τ) :=
  match findSlot id 0 q.buckets with
  | none => none
  | some (ti, b) =>
    match b.entries.find? (·.id = id) with
    | none => none
    | some entry =>
      let left := { q with count := q.count - 1, cost := q.cost - entry.cost }
      match Bucket.ofEntries b.tenant (b.entries.eraseP (·.id = id)) with
      | some rest => some (entry, { left with buckets := q.buckets.set ti rest })
      | none =>
        let order := q.buckets.eraseIdx ti
        some (entry, { left with
          buckets := order
          cursor := spliceCursor q.cursor ti order.length })

/-- `drain`'s loop. Each round takes an entry, so `count` rounds are enough. -/
def drainLoop : ℕ → FairCostQueue τ → List (QueueEntry τ) × FairCostQueue τ
  | 0, q => ([], q)
  | n + 1, q =>
    match q.dequeue maxSafeInteger with
    | none => ([], q)
    | some (entry, q) => let (out, q) := drainLoop n q; (entry :: out, q)

def drain (q : FairCostQueue τ) : List (QueueEntry τ) × FairCostQueue τ :=
  let (out, q) := drainLoop q.count q
  (out, { q with cursor := 0 })

end FairCostQueue
end OmniRoute
