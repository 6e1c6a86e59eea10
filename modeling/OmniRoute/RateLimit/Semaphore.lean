import OmniRoute.Lib.OrdMap

/-!
# The rate-limit semaphore

The module `open-sse/services/rateLimitSemaphore.ts`: one concurrency gate per model, with a
FIFO queue of waiters and a pause set by `markRateLimited`.

A gate is an object that closures hold on to after the map has dropped it: the timeout of a
waiter and the delayed drain of `markRateLimited` keep the gate they were made with, while a
release function and `drainQueue` look the model up again. So gates live in a `heap` under a
`GateId`, and `gates` maps a model to the id of its current gate.

The state also holds what the JavaScript runtime keeps: the clock, the armed timers, and the
release functions that have not been called. `grants` and `rejections` record how the promises
returned by `acquire` were settled.
-/

namespace OmniRoute

abbrev GateId := ℕ

/-- `ModelGate`. A `QueueItem` is named by the `acquire` call it belongs to. -/
structure ModelGate where
  running : ℕ
  max : ℤ
  queue : List ℕ
  rateLimitedUntil : Option ℤ
  deriving DecidableEq

/-- `AcquireOptions`, with the defaults of `acquire`. -/
structure AcquireOptions where
  maxConcurrency : ℤ := 3
  timeoutMs : ℕ := 30000
  maxQueueSize : Option ℤ := none
  deriving DecidableEq

structure SemaphoreError where
  message : String
  code : Option String
  deriving DecidableEq

/-- Call `call` on `model` was handed a release function at time `time`. -/
structure Grant where
  call : ℕ
  model : String
  time : ℕ
  deriving DecidableEq

/-- The armed timeout of a queued `acquire`; its promise is pending. -/
structure WaiterTimer where
  call : ℕ
  model : String
  gate : GateId
  timeoutMs : ℕ
  due : ℕ
  deriving DecidableEq

/-- The delayed drain armed by `markRateLimited`. -/
structure DrainTimer where
  id : ℕ
  model : String
  gate : GateId
  due : ℤ
  deriving DecidableEq

structure RateLimitSemaphore where
  now : ℕ
  gates : OrdMap String GateId
  heap : GateId → ModelGate
  /-- Gates made so far; the next one gets this id. -/
  made : ℕ
  calls : ℕ
  marks : ℕ
  grants : List Grant
  rejections : List (ℕ × SemaphoreError)
  /-- Release functions not called yet, by call, with their model. -/
  held : List (ℕ × String)
  waiterTimers : List WaiterTimer
  drainTimers : List DrainTimer

/-! ## Gates -/

namespace ModelGate

def fresh (maxConcurrency : ℤ) : ModelGate :=
  { running := 0, max := maxConcurrency, queue := [], rateLimitedUntil := none }

/-- A gate the map may drop. -/
def Idle (gate : ModelGate) : Prop := gate.running = 0 ∧ gate.queue = []

instance (gate : ModelGate) : Decidable gate.Idle := inferInstanceAs (Decidable (_ ∧ _))

/-- `isRateLimited`, which clears a pause that has run out. -/
def isRateLimited (now : ℕ) (gate : ModelGate) : Bool × ModelGate :=
  match gate.rateLimitedUntil with
  | none => (false, gate)
  | some pausedUntil =>
      if pausedUntil = 0 then (false, gate)
      else if pausedUntil ≤ now then (false, { gate with rateLimitedUntil := none })
      else (true, gate)

/-- `gate.running < gate.max && !isRateLimited(gate)`; the second test is not made, and an old
pause not cleared, when every slot is taken. -/
def hasSlot (now : ℕ) (gate : ModelGate) : Bool × ModelGate :=
  if gate.running < gate.max then
    let (limited, gate) := gate.isRateLimited now
    (!limited, gate)
  else (false, gate)

/-- Take a slot. -/
def take (gate : ModelGate) : ModelGate := { gate with running := gate.running + 1 }

/-- The loop of `drainQueue`, over the queue: the waiters granted, in order, and the gate. -/
def drainLoop (now : ℕ) : List ℕ → ModelGate → List ℕ × ModelGate
  | [], gate => ([], { gate with queue := [] })
  | next :: queue, gate =>
      let (free, gate) := gate.hasSlot now
      if free then
        let (granted, gate) := drainLoop now queue gate.take
        (next :: granted, gate)
      else ([], { gate with queue := next :: queue })

/-- Whether a bounded queue turns a new waiter away (a negative bound is no bound). -/
def queueFull (maxQueueSize : Option ℤ) (gate : ModelGate) : Bool :=
  match maxQueueSize with
  | none => false
  | some maxQueueSize => decide (0 ≤ maxQueueSize ∧ maxQueueSize ≤ gate.queue.length)

end ModelGate

namespace RateLimitSemaphore

def start (now : ℕ) : RateLimitSemaphore where
  now := now
  gates := .empty
  heap := fun _ => .fresh 0
  made := 0
  calls := 0
  marks := 0
  grants := []
  rejections := []
  held := []
  waiterTimers := []
  drainTimers := []

/-- Write to a gate object. -/
def setGate (i : GateId) (gate : ModelGate) (s : RateLimitSemaphore) : RateLimitSemaphore :=
  { s with heap := fun j => if j = i then gate else s.heap j }

/-- `gates.delete`. -/
def deleteGate (modelStr : String) (s : RateLimitSemaphore) : RateLimitSemaphore :=
  { s with gates := s.gates.delete modelStr }

/-- `getGate`: the model's gate, made if it has none, with `max` overwritten. -/
def getGate (modelStr : String) (maxConcurrency : ℤ) (s : RateLimitSemaphore) :
    GateId × RateLimitSemaphore :=
  match s.gates.get modelStr with
  | some i => (i, s.setGate i { s.heap i with max := maxConcurrency })
  | none =>
      (s.made, { s.setGate s.made (.fresh maxConcurrency) with
        gates := s.gates.set modelStr s.made
        made := s.made + 1 })

/-- Resolve a call with a release function; a queued one has its timeout cleared. -/
def resolve (modelStr : String) (call : ℕ) (s : RateLimitSemaphore) : RateLimitSemaphore :=
  { s with
    grants := s.grants ++ [⟨call, modelStr, s.now⟩]
    held := s.held ++ [(call, modelStr)]
    waiterTimers := s.waiterTimers.filter fun t => ¬ (t.call = call ∧ t.model = modelStr) }

/-- Write a gate back, and drop it from the map when it is idle. -/
def settleGate (modelStr : String) (i : GateId) (gate : ModelGate) (s : RateLimitSemaphore) :
    RateLimitSemaphore :=
  let s := s.setGate i gate
  if gate.Idle then s.deleteGate modelStr else s

/-- `drainQueue`. -/
def drainQueue (modelStr : String) (s : RateLimitSemaphore) : RateLimitSemaphore :=
  match s.gates.get modelStr with
  | none => s
  | some i =>
      let (granted, gate) := (s.heap i).drainLoop s.now (s.heap i).queue
      (granted.foldl (fun s call => s.resolve modelStr call) s).settleGate modelStr i gate

/-! ## The exported functions -/

/-- Reject a call. -/
def reject (call : ℕ) (error : SemaphoreError) (s : RateLimitSemaphore) : RateLimitSemaphore :=
  { s with rejections := s.rejections ++ [(call, error)] }

/-- Arm the timeout of a call that waits at gate `i`. -/
def armTimeout (call : ℕ) (modelStr : String) (i : GateId) (timeoutMs : ℕ)
    (s : RateLimitSemaphore) : RateLimitSemaphore :=
  { s with waiterTimers := s.waiterTimers ++ [⟨call, modelStr, i, timeoutMs, s.now + timeoutMs⟩] }

/-- Call `call` of `acquire`; `step` numbers the calls. -/
def acquireAs (call : ℕ) (modelStr : String) (options : AcquireOptions) (s : RateLimitSemaphore) :
    RateLimitSemaphore :=
  let (i, s) := s.getGate modelStr options.maxConcurrency
  let (free, gate) := (s.heap i).hasSlot s.now
  if free then (s.setGate i gate.take).resolve modelStr call
  else if gate.queueFull options.maxQueueSize then
    let message := s!"Semaphore queue full ({options.maxQueueSize.getD 0}) for {modelStr}"
    -- Dropping the gate is meant for one this call has just made, but any idle gate goes.
    (s.reject call ⟨message, some "SEMAPHORE_QUEUE_FULL"⟩).settleGate modelStr i gate
  else
    (s.armTimeout call modelStr i options.timeoutMs).setGate i
      { gate with queue := gate.queue ++ [call] }

/-- The function `createReleaseFn` returns, called for the first time. -/
def releaseSlot (modelStr : String) (s : RateLimitSemaphore) : RateLimitSemaphore :=
  match s.gates.get modelStr with
  | none => s
  | some i =>
      let gate := s.heap i
      if 0 < gate.running then
        let gate := { gate with running := gate.running - 1 }
        if gate.Idle then (s.setGate i gate).deleteGate modelStr
        else (s.setGate i gate).drainQueue modelStr
      else s

/-- The timeout of a queued `acquire`. -/
def expire (t : WaiterTimer) (s : RateLimitSemaphore) : RateLimitSemaphore :=
  let message := s!"Semaphore timeout after {t.timeoutMs}ms for {t.model}"
  let gate := s.heap t.gate
  { s.setGate t.gate { gate with queue := gate.queue.erase t.call } with
    waiterTimers := s.waiterTimers.filter fun t' => ¬ (t'.call = t.call ∧ t'.model = t.model)
    rejections := s.rejections ++ [(t.call, ⟨message, some "SEMAPHORE_TIMEOUT"⟩)] }

/-- `markRateLimited`. It looks the gate up with the default `maxConcurrency`. -/
def markRateLimited (modelStr : String) (cooldownMs : ℤ) (s : RateLimitSemaphore) :
    RateLimitSemaphore :=
  let (i, s) := s.getGate modelStr 3
  { s.setGate i { s.heap i with rateLimitedUntil := some (s.now + cooldownMs) } with
    marks := s.marks + 1
    drainTimers := s.drainTimers ++ [⟨s.marks, modelStr, i, s.now + (cooldownMs + 50)⟩] }

/-- The callback of the timer `markRateLimited` arms. -/
def delayedDrain (t : DrainTimer) (s : RateLimitSemaphore) : RateLimitSemaphore :=
  let s := { s with drainTimers := s.drainTimers.erase t }
  match (s.heap t.gate).rateLimitedUntil with
  | none => s
  | some pausedUntil =>
      if pausedUntil ≠ 0 ∧ pausedUntil ≤ s.now then
        (s.setGate t.gate { s.heap t.gate with rateLimitedUntil := none }).drainQueue t.model
      else s

/-- `resetAll`. -/
def resetAll (s : RateLimitSemaphore) : RateLimitSemaphore :=
  let queued := s.gates.entries.flatMap fun (modelStr, i) =>
    (s.heap i).queue.map fun call => (call, modelStr)
  { s with
    gates := .empty
    waiterTimers := s.waiterTimers.filter fun t => (t.call, t.model) ∉ queued
    rejections := s.rejections ++ queued.map fun item => (item.1, ⟨"Semaphore reset", none⟩) }

/-! ## Events -/

inductive Event
  | acquire (modelStr : String) (options : AcquireOptions)
  /-- The release function that call `call` on `modelStr` was handed is called. -/
  | release (call : ℕ) (modelStr : String)
  | timeout (t : WaiterTimer)
  | markRateLimited (modelStr : String) (cooldownMs : ℤ)
  | delayedDrain (t : DrainTimer)
  | resetAll
  | advance (dt : ℕ)

/-- One event. A timer fires once it is due; only a granted call has a release function, and
calling it again does nothing. -/
def step (s : RateLimitSemaphore) : Event → Option RateLimitSemaphore
  | .acquire modelStr options =>
      some { s.acquireAs s.calls modelStr options with calls := s.calls + 1 }
  | .release call modelStr =>
      if (call, modelStr) ∈ s.held then
        some ({ s with held := s.held.erase (call, modelStr) }.releaseSlot modelStr)
      else if s.grants.any fun g => g.call = call ∧ g.model = modelStr then some s
      else none
  | .timeout t => if t ∈ s.waiterTimers ∧ t.due ≤ s.now then some (s.expire t) else none
  | .markRateLimited modelStr cooldownMs => some (s.markRateLimited modelStr cooldownMs)
  | .delayedDrain t =>
      if t ∈ s.drainTimers ∧ t.due ≤ s.now then some (s.delayedDrain t) else none
  | .resetAll => some s.resetAll
  | .advance dt => some { s with now := s.now + dt }

end RateLimitSemaphore

end OmniRoute
