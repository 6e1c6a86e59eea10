import OmniRoute.Admission.Config
import OmniRoute.Admission.FairQueue
import OmniRoute.Lib.OrdMap
import OmniRoute.Lib.Trace

/-!
# The admission controller

`AdaptiveAdmissionController` of `open-sse/services/admission/controller.ts`. A request has a cost.
In mode `enforce` it is admitted when its cost fits what the limit leaves, and waits in the shared
queue or in the lane of its tenant otherwise; in mode `shadow` everything is admitted and a
virtual ledger records what `enforce` would have done.

The code is single-threaded and no operation waits in the middle, so an operation is a function
from state to state, with one reading of the clock. Promises, leases and queue entries are named
by the ids that `nextId` mints. A lease is released when it has left `active`: only
`releaseLease` sets `released` and only there the record is deleted. A timer or an abort listener
is kept under the id of its entry, since an entry has one of each.

Next to what the code keeps, `calls` counts the calls of `acquire` that returned, `issued` is the
queued promises it handed out, `settled` how they were settled, and `admissions` what each
admission left.
-/

namespace OmniRoute

open JsNumber

/-- `ADMISSION_LANE_TTL_MS` -/
def admissionLaneTtlMs : ℤ := 60000

/-- `ADMISSION_LANE_MAX_SESSIONS` -/
def admissionLaneMaxSessions : ℕ := 1000

inductive AdmissionRejectCode
  | oversized
  | queueFull
  | deadline
  | aborted
  | laneEvicted
  | shutdown
  deriving DecidableEq

inductive ShadowDecision
  | wouldAdmit
  | wouldQueue
  | wouldReject
  deriving DecidableEq

inductive VirtualDisposition
  | active
  | queued
  | rejected
  | none
  deriving DecidableEq

structure ActiveLeaseRecord where
  cost : ℤ
  admittedAtMs : ℤ
  virtualDisposition : VirtualDisposition
  deriving DecidableEq

/-- The settling functions of a promise are the id of its entry. -/
structure QueuedPayload where
  signal : Option ℕ
  deriving DecidableEq

structure VirtualPayload where
  recordId : ℕ
  deriving DecidableEq

structure AdmissionLane where
  queue : FairCostQueue QueuedPayload
  lastUsedMs : ℤ
  deriving DecidableEq

structure AdmissionRequest (F : Type) where
  cost : Option F := none
  features : Option (AdmissionCostFeatures F) := none
  tenantKey : Option String := none
  maxWaitMs : Option F := none
  signal : Option ℕ := none
  pressure : Option AdmissionPressure := none

structure AdmissionReleaseMeta (F : Type) where
  latencyMs : Option F := none
  pressure : Option AdmissionPressure := none

inductive AdmissionAcquireResult
  | admitted (lease : ℕ) (shadowDecision : Option ShadowDecision)
  | queued (entry : ℕ)
  | rejected (code : AdmissionRejectCode) (message : String)
  deriving DecidableEq

/-- How a queued promise was settled: with a lease, or with an error. -/
inductive Settlement
  | resolved (lease : ℕ)
  | rejected (code : AdmissionRejectCode) (message : String)
  deriving DecidableEq

/-- An admission in the ledger: its cost, the limit, and the active cost it left. -/
structure Admission where
  cost : ℤ
  limit : ℤ
  activeCost : ℤ
  deriving DecidableEq

structure AdmissionController (F : Type) [JsNumber F] where
  config : ValidatedConfig F
  adaptation : AdaptationState F
  queue : FairCostQueue QueuedPayload
  virtualQueue : FairCostQueue VirtualPayload
  virtualLanes : OrdMap String AdmissionLane
  /-- When the lane eviction timer is due. -/
  laneEvictionTimer : Option ℤ
  active : OrdMap ℕ ActiveLeaseRecord
  activeCost : ℤ
  virtualActiveCost : ℤ
  virtualActiveCount : ℤ
  lastSampleMs : ℤ
  /-- When the window timer is due. -/
  windowTimer : Option ℤ
  shutDown : Bool
  admittedCount : ℕ
  rejectedCount : ℕ
  wouldAdmitCount : ℤ
  wouldQueueCount : ℤ
  wouldRejectCount : ℤ
  now : ℤ
  leaseSeq : ℕ
  aborted : List ℕ
  /-- The deadline timers, by entry. -/
  timers : OrdMap ℕ ℤ
  /-- The abort listeners, by entry and signal, in the order of registration. -/
  listeners : List (ℕ × ℕ)
  calls : ℕ
  issued : List ℕ
  settled : List (ℕ × Settlement)
  admissions : List Admission

inductive AdmissionEvent (F : Type)
  /-- The clock shows another time. -/
  | clock (now : ℤ)
  | acquire (request : AdmissionRequest F)
  | release (lease : ℕ) (outcome : AdmissionReleaseOutcome) (info : AdmissionReleaseMeta F)
  | observePressure (pressure : AdmissionPressure)
  | tick
  | snapshot
  | updateConfig (config : AdaptiveAdmissionConfig F)
  | shutdown
  /-- A caller aborts its signal. -/
  | abort (signal : ℕ)
  /-- The deadline timer of an entry fires. -/
  | deadline (entry : ℕ)
  | windowTimer
  | laneTimer

def saturateSnapshotNumber (value : ℤ) : ℤ :=
  if value ≤ 0 then 0 else if maxSafeInteger ≤ value then maxSafeInteger else value

def addSaturated (total delta : ℤ) : ℤ :=
  if delta ≤ 0 then saturateSnapshotNumber total
  else if maxSafeInteger - delta ≤ total then maxSafeInteger
  else total + delta

namespace AdmissionController

variable {F : Type} [JsNumber F]

/-! ## Timers, listeners and promises -/

def clearEntryTimer (s : AdmissionController F) (entry : QueueEntry QueuedPayload) :
    AdmissionController F :=
  { s with timers := s.timers.delete entry.id }

def detachAbort (s : AdmissionController F) (entry : QueueEntry QueuedPayload) :
    AdmissionController F :=
  { s with listeners := s.listeners.filter (·.1 ≠ entry.id) }

def settle (s : AdmissionController F) (entry : QueueEntry QueuedPayload) (how : Settlement) :
    AdmissionController F :=
  { s with settled := s.settled ++ [(entry.id, how)] }

/-- Every rejection of a queued entry does this, also where the code repeats the lines. -/
def failQueued (s : AdmissionController F) (entry : QueueEntry QueuedPayload)
    (code : AdmissionRejectCode) (message : String) : AdmissionController F :=
  let s := ((s.clearEntryTimer entry).detachAbort entry).settle entry (.rejected code message)
  { s with rejectedCount := s.rejectedCount + 1 }

def reject (s : AdmissionController F) (code : AdmissionRejectCode) (message : String) :
    AdmissionController F × Except String AdmissionAcquireResult :=
  ({ s with rejectedCount := s.rejectedCount + 1 }, .ok (.rejected code message))

/-! ## Admissions -/

def sampleIntegral (s : AdmissionController F) : AdmissionController F :=
  let dt := s.now - s.lastSampleMs
  if 0 < dt then
    let limit := s.adaptation.currentLimit
    let activeForIntegral := if limit ≤ s.activeCost then limit else s.activeCost
    { s with
      adaptation := sampleActiveIntegral s.adaptation activeForIntegral dt
      lastSampleMs := s.now }
  else s

/-- The source's `admit`; the lease is named by its id. -/
def admitEntry (s : AdmissionController F) (cost : ℤ)
    (virtualDisposition : VirtualDisposition) : AdmissionController F × ℕ :=
  let s := s.sampleIntegral
  let id := s.leaseSeq + 1
  ({ s with
    leaseSeq := id
    active := s.active.set id { cost, admittedAtMs := s.now, virtualDisposition }
    activeCost := s.activeCost + cost
    admittedCount := s.admittedCount + 1
    admissions := s.admissions ++
      [{ cost, limit := s.adaptation.currentLimit, activeCost := s.activeCost + cost }] }, id)

/-- Mode `off`: no accounting, and a lease that is born released. -/
def admitVirtual (s : AdmissionController F) : AdmissionController F × ℕ :=
  let id := s.leaseSeq + 1
  ({ s with leaseSeq := id, admittedCount := s.admittedCount + 1 }, id)

/-- `entry.payload.resolve(this.admit(entry.cost))` -/
def admitQueued (s : AdmissionController F) (entry : QueueEntry QueuedPayload) :
    AdmissionController F :=
  let (s, lease) := ((s.clearEntryTimer entry).detachAbort entry).admitEntry entry.cost .none
  s.settle entry (.resolved lease)

/-- What both dispatch loops do with a dequeued entry; whether it was admitted. -/
def serveEntry (s : AdmissionController F) (entry : QueueEntry QueuedPayload) :
    AdmissionController F × Bool :=
  if entry.payload.signal.any (· ∈ s.aborted) then
    (s.failQueued entry .aborted "request aborted while queued", false)
  else if entry.deadlineMs ≤ s.now then
    (s.failQueued entry .deadline "admission wait deadline exceeded", false)
  else
    (s.admitQueued entry, true)

/-! ## Lanes -/

def removeEmptyLane (s : AdmissionController F) (tenantKey : String) : AdmissionController F :=
  match s.virtualLanes.get tenantKey with
  | none => s
  | some lane =>
    if lane.queue.count = 0 then { s with virtualLanes := s.virtualLanes.delete tenantKey } else s

def deleteLane (s : AdmissionController F) (tenantKey : String) : AdmissionController F :=
  match s.virtualLanes.get tenantKey with
  | none => s
  | some lane =>
    let s := lane.queue.drain.1.foldl
      (fun s entry => s.failQueued entry .laneEvicted "connection lane evicted") s
    { s with virtualLanes := s.virtualLanes.delete tenantKey }

/-- The lane that has not been used for longest; of several, the one created last. -/
def oldestLaneKey (s : AdmissionController F) : Option String :=
  (s.virtualLanes.entries.foldl (fun (oldest : Option (String × ℤ)) p =>
    match oldest with
    | none => some (p.1, p.2.lastUsedMs)
    | some o => if p.2.lastUsedMs ≤ o.2 then some (p.1, p.2.lastUsedMs) else some o) none).map
      Prod.fst

def clearLaneEviction (s : AdmissionController F) : AdmissionController F :=
  { s with laneEvictionTimer := none }

def armLaneEviction (s : AdmissionController F) : AdmissionController F :=
  { s with laneEvictionTimer := some (s.now + admissionLaneTtlMs) }

def evictIdleLanes (s : AdmissionController F) : AdmissionController F :=
  let keysToDelete := (s.virtualLanes.entries.filter fun p =>
    admissionLaneTtlMs ≤ s.now - p.2.lastUsedMs).map Prod.fst
  let s := keysToDelete.foldl deleteLane s
  if 0 < s.virtualLanes.size then s.armLaneEviction else s.clearLaneEviction

/-- The lane of a tenant, for use now. A lane's key is not empty. -/
def getOrCreateLane (s : AdmissionController F) (tenantKey : String) :
    AdmissionController F × AdmissionLane :=
  match s.virtualLanes.get tenantKey with
  | some lane =>
    let lane := { lane with lastUsedMs := s.now }
    ({ s with virtualLanes := s.virtualLanes.set tenantKey lane }, lane)
  | none =>
    let s :=
      if admissionLaneMaxSessions ≤ s.virtualLanes.size then
        match s.oldestLaneKey with
        | some oldestKey => s.deleteLane oldestKey
        | none => s
      else s
    let lane : AdmissionLane :=
      { queue := .new s.config.maxQueueCount s.config.maxQueueCost, lastUsedMs := s.now }
    ({ s with virtualLanes := s.virtualLanes.set tenantKey lane }, lane)

def laneTotalQueuedCount (s : AdmissionController F) : ℤ :=
  s.virtualLanes.values.foldl (fun count lane => addSaturated count lane.queue.count) 0

/-! ## Dispatch -/

/-- The while loop of a lane: whether the capacity ran out, which ends the whole dispatch. -/
def dispatchLane (key : String) : ℕ → AdmissionController F → AdmissionController F × Bool
  | 0, s => (s, false)
  | n + 1, s =>
    match s.virtualLanes.get key with
    | none => (s, false)
    | some lane =>
      if lane.queue.count = 0 then (s, false)
      else
        let available := s.adaptation.currentLimit - s.activeCost
        if available ≤ 0 then (s, true)
        else
          match lane.queue.dequeue available with
          | none => (s, false)
          | some (entry, q) =>
            let s := { s with
              virtualLanes := s.virtualLanes.set key { lane with queue := q } }
            match s.serveEntry entry with
            -- one admission a lane, then the next lane
            | (s, true) => (s, false)
            | (s, false) => dispatchLane key n s

def dispatchKeys : List String → AdmissionController F → AdmissionController F
  | [], s => s
  | key :: keys, s =>
    match s.virtualLanes.get key with
    | none => dispatchKeys keys s
    | some lane =>
      match dispatchLane key lane.queue.count s with
      | (s, true) => s
      | (s, false) => dispatchKeys keys (s.removeEmptyLane key)

def dispatchLanes (s : AdmissionController F) : AdmissionController F :=
  if s.shutDown ∨ s.config.mode ≠ .enforce then s
  else if s.virtualLanes.size = 0 then s
  else dispatchKeys s.virtualLanes.keys s

/-- The while loop over the shared queue: whether it emptied the queue. Each round takes an entry,
so `count` rounds are enough. -/
def dispatchLoop : ℕ → AdmissionController F → AdmissionController F × Bool
  | 0, s => (s, true)
  | n + 1, s =>
    if s.queue.count = 0 then (s, true)
    else
      let available := s.adaptation.currentLimit - s.activeCost
      if available ≤ 0 then (s, false)
      else
        match s.queue.dequeue available with
        | none => (s, false)
        | some (entry, q) => dispatchLoop n ({ s with queue := q }.serveEntry entry).1

def dispatch (s : AdmissionController F) : AdmissionController F :=
  if s.shutDown ∨ s.config.mode ≠ .enforce then s
  else
    match dispatchLoop s.queue.count s with
    | (s, false) => s
    | (s, true) => s.dispatchLanes

/-! ## The virtual ledger -/

def dispatchVirtualLoop : ℕ → AdmissionController F → AdmissionController F
  | 0, s => s
  | n + 1, s =>
    if s.virtualQueue.count = 0 then s
    else
      let available := s.adaptation.currentLimit - s.virtualActiveCost
      if available ≤ 0 then s
      else
        match s.virtualQueue.dequeue available with
        | none => s
        | some (entry, q) =>
          let s := { s with virtualQueue := q }
          match s.active.get entry.payload.recordId with
          | none => dispatchVirtualLoop n s
          | some record =>
            dispatchVirtualLoop n { s with
              active := s.active.set entry.payload.recordId
                { record with virtualDisposition := .active }
              virtualActiveCost := addSaturated s.virtualActiveCost record.cost
              virtualActiveCount := addSaturated s.virtualActiveCount 1 }

def dispatchVirtual (s : AdmissionController F) : AdmissionController F :=
  dispatchVirtualLoop s.virtualQueue.count s

/-- The record has left `active` by now, so its disposition is of no use any more. -/
def releaseVirtual (s : AdmissionController F) (id : ℕ) (record : ActiveLeaseRecord) :
    AdmissionController F :=
  let s :=
    match record.virtualDisposition with
    | .active =>
      { s with
        virtualActiveCost := s.virtualActiveCost - record.cost
        virtualActiveCount := s.virtualActiveCount - 1 }
    | .queued =>
      match s.virtualQueue.removeById id with
      | some (_, q) => { s with virtualQueue := q }
      | none => s
    | _ => s
  s.dispatchVirtual

def setDisposition (s : AdmissionController F) (id : ℕ) (record : ActiveLeaseRecord)
    (virtualDisposition : VirtualDisposition) : AdmissionController F :=
  { s with active := s.active.set id { record with virtualDisposition } }

/-- The second loop of `rebuildVirtualState`, for one record. -/
def classify (s : AdmissionController F) (id : ℕ) : AdmissionController F :=
  match s.active.get id with
  | none => s
  | some record =>
    if s.adaptation.currentLimit < record.cost then s.setDisposition id record .rejected
    else if record.cost ≤ s.adaptation.currentLimit - s.virtualActiveCost then
      { s.setDisposition id record .active with
        virtualActiveCost := addSaturated s.virtualActiveCost record.cost
        virtualActiveCount := addSaturated s.virtualActiveCount 1 }
    else
      let entry : QueueEntry VirtualPayload :=
        { id, tenantKey := "_existing", cost := record.cost, enqueuedAtMs := record.admittedAtMs
          deadlineMs := maxSafeInteger, payload := ⟨id⟩ }
      match s.virtualQueue.enqueue entry with
      | some q => { s.setDisposition id record .queued with virtualQueue := q }
      | none => s.setDisposition id record .rejected

def rebuildVirtualState (s : AdmissionController F) (enable : Bool) : AdmissionController F :=
  let s := { s with
    virtualQueue := .new s.config.maxQueueCount s.config.maxQueueCost
    virtualActiveCost := 0
    virtualActiveCount := 0
    active := s.active.modifyAll s.active.keys
      fun record => { record with virtualDisposition := .none } }
  if enable then s.active.keys.foldl classify s else s

/-! ## Acquire -/

def shouldAdmitSolo (s : AdmissionController F) (cost : ℤ) : Bool :=
  decide (cost ≤ s.config.maxLimit) && decide (s.active.size = 0) && decide (s.queue.count = 0) &&
    decide (s.laneTotalQueuedCount = 0) && decide (s.adaptation.pressure = .normal)

def resolveCost (s : AdmissionController F) (request : AdmissionRequest F) : Except String ℤ :=
  match request.cost, request.features with
  | some cost, _ => normalizeRequestCost cost s.config.maxRequestCost.1
  | none, some features => .ok (estimateAdmissionCost features s.config.costConfig)
  | none, none => .ok 1

/-- `request.tenantKey`, or `_default` if it is missing or empty. -/
def tenant (request : AdmissionRequest F) : String :=
  match request.tenantKey with
  | some tenantKey => if tenantKey.isEmpty then "_default" else tenantKey
  | none => "_default"

/-- The decision of `acquireShadow`. -/
def shadowDecision (s : AdmissionController F) (cost limit : ℤ) : ShadowDecision :=
  if limit < cost ∨ maxSafeInteger < cost then .wouldReject
  else if s.virtualActiveCost + cost ≤ limit then .wouldAdmit
  else if s.virtualQueue.canAccept cost then .wouldQueue
  else .wouldReject

def acquireShadow (s : AdmissionController F) (request : AdmissionRequest F) (cost limit : ℤ) :
    AdmissionController F × ℕ × ShadowDecision :=
  match s.shadowDecision cost limit with
  | .wouldReject =>
    let (s, lease) :=
      { s with wouldRejectCount := s.wouldRejectCount + 1 }.admitEntry cost .rejected
    (s, lease, .wouldReject)
  | .wouldAdmit =>
    let (s, lease) := { s with
      virtualActiveCost := addSaturated s.virtualActiveCost cost
      virtualActiveCount := addSaturated s.virtualActiveCount 1
      wouldAdmitCount := addSaturated s.wouldAdmitCount 1 }.admitEntry cost .active
    (s, lease, .wouldAdmit)
  | .wouldQueue =>
    let (s, lease) := { s with wouldQueueCount := s.wouldQueueCount + 1 }.admitEntry cost .queued
    let entry : QueueEntry VirtualPayload :=
      { id := lease, tenantKey := tenant request, cost, enqueuedAtMs := s.now
        deadlineMs := maxSafeInteger, payload := ⟨lease⟩ }
    match s.virtualQueue.enqueue entry with
    | some q => ({ s with virtualQueue := q }, lease, .wouldQueue)
    | none => (s, lease, .wouldQueue)

/-- The bounded wait of a request. -/
def resolveMaxWait (s : AdmissionController F) (request : AdmissionRequest F) :
    Except String ℤ :=
  match request.maxWaitMs with
  | some maxWaitMs => normalizeRequestCost maxWaitMs maxAdmissionWindowMs
  | none => .ok s.config.defaultMaxWaitMs.1

/-- Put an entry in the lane of its tenant; `none` when the lane refuses it. -/
def enqueueLane (s : AdmissionController F) (entry : QueueEntry QueuedPayload) :
    AdmissionController F × Bool :=
  let (s, lane) := s.getOrCreateLane entry.tenantKey
  match lane.queue.enqueue entry with
  | none => (s.removeEmptyLane entry.tenantKey, false)
  | some q =>
    ({ s with virtualLanes := s.virtualLanes.set entry.tenantKey { lane with queue := q } }
      |>.armLaneEviction, true)

/-- What `enqueue` does once the entry is in a queue. The first dispatch comes before the timer
and the listener, so these may be set for an entry that has left already. -/
def afterEnqueue (s : AdmissionController F) (entry : QueueEntry QueuedPayload) :
    AdmissionController F :=
  let s := { s with issued := s.issued ++ [entry.id] }.dispatch
  let s := { s with timers := s.timers.set entry.id (s.now + Max.max 0 (entry.deadlineMs - s.now)) }
  let s :=
    match entry.payload.signal with
    | some signal => { s with listeners := s.listeners ++ [(entry.id, signal)] }
    | none => s
  s.dispatch

def enqueue (s : AdmissionController F) (request : AdmissionRequest F) (cost : ℤ) :
    AdmissionController F × Except String AdmissionAcquireResult :=
  let id := s.leaseSeq + 1
  let s := { s with leaseSeq := id }
  match s.resolveMaxWait request with
  | .error message => (s, .error message)
  | .ok maxWait =>
    let entry : QueueEntry QueuedPayload :=
      { id, tenantKey := tenant request, cost, enqueuedAtMs := s.now
        deadlineMs := Min.min maxSafeInteger (s.now + maxWait), payload := ⟨request.signal⟩ }
    if entry.tenantKey ≠ "_default" ∧ s.config.virtualLanes then
      match s.enqueueLane entry with
      | (s, false) => s.reject .queueFull "admission lane queue is full"
      | (s, true) => (s.afterEnqueue entry, .ok (.queued id))
    else
      match s.queue.enqueue entry with
      | none => s.reject .queueFull "admission queue is full"
      | some q => ({ s with queue := q }.afterEnqueue entry, .ok (.queued id))

/-- The last part of `acquire`, in mode `enforce`. -/
def acquireEnforce (s : AdmissionController F) (request : AdmissionRequest F) (cost limit : ℤ) :
    AdmissionController F × Except String AdmissionAcquireResult :=
  if limit < cost then
    if s.shouldAdmitSolo cost then
      let (s, lease) := s.admitEntry cost .none
      (s, .ok (.admitted lease none))
    else s.reject .oversized "request cost exceeds max budget"
  else if s.queue.count = 0 ∧ s.activeCost + cost ≤ limit then
    let (s, lease) := s.admitEntry cost .none
    (s, .ok (.admitted lease none))
  else if s.queue.canAccept cost then s.enqueue request cost
  else s.reject .queueFull "admission queue is full"

/-- An error is a thrown `RangeError`. -/
def acquire (s : AdmissionController F) (request : AdmissionRequest F) :
    AdmissionController F × Except String AdmissionAcquireResult :=
  if s.shutDown then s.reject .shutdown "admission controller is shut down"
  else if request.signal.any (· ∈ s.aborted) then
    s.reject .aborted "request aborted before acquire"
  else
    let s :=
      match request.pressure with
      | some pressure => { s with adaptation := setPressure s.adaptation pressure }
      | none => s
    match s.resolveCost request with
    | .error message => (s, .error message)
    | .ok cost =>
      match s.config.mode with
      | .off =>
        let (s, lease) := s.admitVirtual
        (s, .ok (.admitted lease none))
      | .shadow =>
        let (s, lease, decision) := s.acquireShadow request cost s.adaptation.currentLimit
        (s, .ok (.admitted lease (some decision)))
      | .enforce => s.acquireEnforce request cost s.adaptation.currentLimit

/-! ## The other operations -/

/-- A lease that is not active has been released before, or needs no release. -/
def releaseLease (s : AdmissionController F) (id : ℕ) (outcome : AdmissionReleaseOutcome)
    (info : AdmissionReleaseMeta F) : AdmissionController F :=
  match s.active.get id with
  | none => s
  | some record =>
    let s := s.sampleIntegral
    let s := { s with active := s.active.delete id, activeCost := s.activeCost - record.cost }
    let latency : F := info.latencyMs.getD (lit (Max.max 0 (s.now - record.admittedAtMs) : ℤ))
    let adaptation := noteOutcome (noteLatency s.adaptation latency s.config.adaptation) outcome
    let adaptation := { adaptation with windowCompleted := adaptation.windowCompleted + 1 }
    let adaptation :=
      match info.pressure with
      | some pressure => setPressure adaptation pressure
      | none => adaptation
    ({ s with adaptation }.releaseVirtual id record).dispatch

/-- The first lane whose queue holds `id`, with what is left of the queue. -/
def findInLanes (id : ℕ) : List (String × AdmissionLane) →
    Option (String × AdmissionLane × QueueEntry QueuedPayload)
  | [] => none
  | (key, lane) :: lanes =>
    match lane.queue.removeById id with
    | some (entry, q) => some (key, { lane with queue := q }, entry)
    | none => findInLanes id lanes

/-- Take an entry out of the queue or the lane that holds it. -/
def withdraw (s : AdmissionController F) (id : ℕ) :
    Option (AdmissionController F × QueueEntry QueuedPayload) :=
  match s.queue.removeById id with
  | some (entry, q) => some ({ s with queue := q }, entry)
  | none =>
    match findInLanes id s.virtualLanes.entries with
    | none => none
    | some (key, lane, entry) =>
      some ({ s with virtualLanes := s.virtualLanes.set key lane }.removeEmptyLane entry.tenantKey,
        entry)

def expireEntry (s : AdmissionController F) (id : ℕ) (code : AdmissionRejectCode)
    (message : String) : AdmissionController F :=
  match s.withdraw id with
  | none => s
  | some (s, entry) => (s.failQueued entry code message).dispatch

def observePressure (s : AdmissionController F) (pressure : AdmissionPressure) :
    AdmissionController F :=
  let s := { s with adaptation := setPressure s.adaptation pressure }
  if pressure = .critical ∧ s.adaptation.criticalDecreaseConsumed = false then
    let s := { s with adaptation := { s.adaptation with
      currentLimit := Max.max s.config.minLimit
        (scaleLimit s.adaptation.currentLimit s.config.adaptation.criticalDecreaseFactor)
      criticalDecreaseConsumed := true } }
    s.dispatch.dispatchVirtual
  else s

def tick (s : AdmissionController F) : AdmissionController F :=
  let s := s.sampleIntegral.evictIdleLanes
  let s := { s with adaptation := closeAdaptationWindow s.adaptation s.config.adaptation s.now }
  s.dispatch.dispatchVirtual

def armWindowTimer (s : AdmissionController F) : AdmissionController F :=
  if s.shutDown ∨ s.config.mode = .off then { s with windowTimer := none }
  else { s with windowTimer := some (s.now + s.config.windowMs) }

/-- The fate of a drained entry under the new configuration. -/
def requeue (s : AdmissionController F) (entry : QueueEntry QueuedPayload) :
    AdmissionController F :=
  if s.config.mode ≠ .enforce then s.admitQueued entry
  else if s.adaptation.currentLimit < entry.cost then
    s.failQueued entry .oversized "request cost exceeds max budget after config update"
  else
    match s.queue.enqueue entry with
    | some q => { s with queue := q }
    | none => s.failQueued entry .queueFull "queue capacity reduced"

/-- `updateConfig` with a configuration that is valid. -/
def reconfigure (s : AdmissionController F) (next : ValidatedConfig F) : AdmissionController F :=
  let s := s.sampleIntegral
  let s := { s with
    config := next
    adaptation := { s.adaptation with
      currentLimit := Min.min next.maxLimit (Max.max next.minLimit s.adaptation.currentLimit)
      recoveryCeiling := clampLimit next.initialLimit next.minLimit next.maxLimit
      windowStartMs := s.now
      windowActiveCostIntegral := 0
      windowCompleted := 0
      windowLatencySamples := 0
      freezeGrowth := false
      criticalDecreaseConsumed := false
      pressure := .normal }
    lastSampleMs := s.now }
  let drained := s.queue.drain.1 ++ s.virtualLanes.values.flatMap fun lane => lane.queue.drain.1
  let s := { s with
    queue := .new next.maxQueueCount next.maxQueueCost
    virtualLanes := .empty }.clearLaneEviction
  let s := drained.foldl requeue s
  let s := (s.rebuildVirtualState (next.mode = .shadow)).armWindowTimer
  if next.mode = .enforce then s.dispatch else s

/-- An invalid configuration throws, and nothing changes. -/
def updateConfig (s : AdmissionController F) (config : AdaptiveAdmissionConfig F) :
    AdmissionController F × Except String Unit :=
  match validateConfig config with
  | .error message => (s, .error message)
  | .ok next => (s.reconfigure next, .ok ())

def shutdown (s : AdmissionController F) : AdmissionController F :=
  if s.shutDown then s
  else
    let s := { s with shutDown := true, windowTimer := none }
    let fail := fun (s : AdmissionController F) (entry : QueueEntry QueuedPayload) =>
      s.failQueued entry .shutdown "admission controller shut down"
    let (drained, q) := s.queue.drain
    let s := drained.foldl fail { s with queue := q }
    let s := (s.virtualLanes.values.flatMap fun lane => lane.queue.drain.1).foldl fail s
    { s with virtualLanes := .empty }.clearLaneEviction

/-- The listener of an entry, called once. -/
def onAbort (s : AdmissionController F) (signal entry : ℕ) : AdmissionController F :=
  if (entry, signal) ∈ s.listeners then
    { s with listeners := s.listeners.filter (· ≠ (entry, signal)) }.expireEntry entry .aborted
      "request aborted while queued"
  else s

/-- The listeners of the signal are called in order; one that an earlier one has removed is not. -/
def abort (s : AdmissionController F) (signal : ℕ) : AdmissionController F :=
  if signal ∈ s.aborted then s
  else
    let s := { s with aborted := signal :: s.aborted }
    ((s.listeners.filter (·.2 = signal)).map Prod.fst).foldl (fun s entry => s.onAbort signal entry) s

/-- `new AdaptiveAdmissionController(config)` -/
def new (config : ValidatedConfig F) (now : ℤ) : AdmissionController F :=
  armWindowTimer {
    config
    adaptation := createAdaptationState config.initialLimit config.minLimit config.maxLimit now
    queue := .new config.maxQueueCount config.maxQueueCost
    virtualQueue := .new config.maxQueueCount config.maxQueueCost
    virtualLanes := .empty
    laneEvictionTimer := none
    active := .empty
    activeCost := 0
    virtualActiveCost := 0
    virtualActiveCount := 0
    lastSampleMs := now
    windowTimer := none
    shutDown := false
    admittedCount := 0
    rejectedCount := 0
    wouldAdmitCount := 0
    wouldQueueCount := 0
    wouldRejectCount := 0
    now
    leaseSeq := 0
    aborted := []
    timers := .empty
    listeners := []
    calls := 0
    issued := []
    settled := []
    admissions := [] }

/-- A call of `acquire` that returns is counted. -/
def call (s : AdmissionController F) (request : AdmissionRequest F) : AdmissionController F :=
  match s.acquire request with
  | (s, .ok _) => { s with calls := s.calls + 1 }
  | (s, .error _) => s

/-- `none` when the event cannot happen: a timer that is not armed or not due. -/
def step (s : AdmissionController F) : AdmissionEvent F → Option (AdmissionController F)
  | .clock now => some { s with now }
  | .acquire request => some (s.call request)
  | .release lease outcome info => some (s.releaseLease lease outcome info)
  | .observePressure pressure => some (s.observePressure pressure)
  | .tick => some s.tick
  | .snapshot => some s.sampleIntegral
  | .updateConfig config => some (s.updateConfig config).1
  | .shutdown => some s.shutdown
  | .abort signal => some (s.abort signal)
  | .deadline entry =>
    match s.timers.get entry with
    | none => none
    | some due =>
      if due ≤ s.now then
        some ({ s with timers := s.timers.delete entry }.expireEntry entry .deadline
          "admission wait deadline exceeded")
      else none
  | .windowTimer =>
    match s.windowTimer with
    | none => none
    | some due => if due ≤ s.now then some s.tick.armWindowTimer else none
  | .laneTimer =>
    match s.laneEvictionTimer with
    | none => none
    | some due => if due ≤ s.now then some s.evictIdleLanes else none

/-- A state some run of a new controller leads to. -/
def Reachable (s : AdmissionController F) : Prop :=
  ∃ config now es, Trace.exec step (new config now) es = some s

end AdmissionController
end OmniRoute
