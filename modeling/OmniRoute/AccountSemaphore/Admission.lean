import OmniRoute.Lib.OrdMap

/-!
# The account semaphore

The module `open-sse/services/accountSemaphore.ts`: a request is admitted when every gate it
needs (global, provider, account) has room, and waits in the queues of all of them otherwise.

Gates are reached through the `gates` map only, so they are held by value. The one closure that
keeps a gate object is the cleanup timer; `CleanupTimer.orphan` says that `reset` has dropped
its gate. A request is named by the call it belongs to, and it is settled when it has left
`queuedRequests`: the code sets `settled` right before it removes a request, everywhere.

A block that has run out stays on its gate here; the code clears it when it looks, which only
`getStats` could tell.

Next to what the code keeps, `granted` and `rejections` record how the promises were settled,
and a permit remembers which of its keys have not been reset since it was granted (`current`).
-/

namespace OmniRoute

structure AccountGate where
  running : ℕ
  maxConcurrency : ℤ
  /-- The calls waiting, head first. -/
  queue : List ℕ
  blockedUntil : Option ℤ
  deriving DecidableEq

/-- A number limit; `none` when it is missing, `null` or not finite. -/
structure SemaphoreRequirement where
  key : String
  maxConcurrency : Option ℚ
  deriving DecidableEq

structure AcquireManyOptions where
  timeoutMs : ℕ := 30000
  signal : Option ℕ := none
  maxQueueSize : ℤ := 20
  deriving DecidableEq

/-- A queued request. Its timer is armed, for `due`, and it listens to its signal. -/
structure AcquireRequest where
  call : ℕ
  keys : List String
  timeoutMs : ℕ
  due : ℕ
  signal : Option ℕ
  deriving DecidableEq

/-- The reason given to `AbortController.abort`. -/
inductive AbortReason
  | error (message : String)
  | text (message : String)
  | other
  deriving DecidableEq

inductive AcquireError
  | semaphore (code message : String)
  | abort (message : String)
  /-- The `Error` the signal was aborted with. -/
  | reason (message : String)
  deriving DecidableEq

/-- A release function that has not been called. -/
structure Permit where
  call : ℕ
  keys : List String
  current : List String
  deriving DecidableEq

/-- An armed timer of `scheduleCleanup`. -/
structure CleanupTimer where
  key : String
  orphan : Bool
  deriving DecidableEq

/-- The moment a block is to last to: a date, or a number of milliseconds from now. -/
inductive BlockUntil
  | date (ms : ℤ)
  | duration (ms : ℤ)
  | notFinite
  deriving DecidableEq

structure AccountSemaphore where
  now : ℕ
  gates : OrdMap String AccountGate
  queuedRequests : List AcquireRequest
  cleanupTimers : List CleanupTimer
  calls : ℕ
  aborted : List (ℕ × AbortReason)
  granted : List (ℕ × List String)
  rejections : List (ℕ × AcquireError)
  permits : List Permit

/-! ## Limits and keys -/

def isBypassed (maxConcurrency : Option ℚ) : Bool :=
  match maxConcurrency with
  | none => true
  | some limit => limit ≤ 0

/-- `Math.trunc`. -/
def trunc (x : ℚ) : ℤ := if 0 ≤ x then ⌊x⌋ else ⌈x⌉

/-- The keys to acquire with their limits, the smallest when a key comes twice. -/
def enabledLimits (requirements : List SemaphoreRequirement) : OrdMap String ℤ :=
  requirements.foldl (fun enabled requirement =>
    if isBypassed requirement.maxConcurrency then enabled
    else
      let limit := trunc (requirement.maxConcurrency.getD 0)
      enabled.set requirement.key (min ((enabled.get requirement.key).getD limit) limit)) .empty

/-- The UTF-16 code units of a character. -/
def codeUnits (c : Char) : List ℕ :=
  if c.toNat < 0x10000 then [c.toNat]
  else [0xD800 + (c.toNat - 0x10000) / 0x400, 0xDC00 + (c.toNat - 0x10000) % 0x400]

/-- The order of `Array.prototype.sort`: by UTF-16 code units. -/
def sortsBefore (a b : String) : Prop := a.toList.flatMap codeUnits ≤ b.toList.flatMap codeUnits

instance : DecidableRel sortsBefore := fun a b =>
  inferInstanceAs (Decidable (a.toList.flatMap codeUnits ≤ b.toList.flatMap codeUnits))

def sortedKeys (enabled : OrdMap String ℤ) : List String := enabled.keys.insertionSort sortsBefore

def makeAbortError : AbortReason → AcquireError
  | .error message => .reason message
  | .text message => .abort message
  | .other => .abort "The operation was aborted"

namespace AccountGate

def fresh (maxConcurrency : ℤ) : AccountGate :=
  { running := 0, maxConcurrency := maxConcurrency, queue := [], blockedUntil := none }

def isBlocked (now : ℕ) (gate : AccountGate) : Bool :=
  match gate.blockedUntil with
  | none => false
  | some blockedUntil => blockedUntil ≠ 0 ∧ ↑now < blockedUntil

/-- A slot is free and the gate is not blocked. -/
def hasRoom (now : ℕ) (gate : AccountGate) : Bool :=
  gate.running < gate.maxConcurrency ∧ ¬ gate.isBlocked now

/-- Nobody holds a permit or waits. -/
def isIdle (gate : AccountGate) : Bool := gate.running = 0 ∧ gate.queue = []

end AccountGate

namespace AccountSemaphore

def start (now : ℕ) : AccountSemaphore where
  now := now
  gates := .empty
  queuedRequests := []
  cleanupTimers := []
  calls := 0
  aborted := []
  granted := []
  rejections := []
  permits := []

/-! ## Gates -/

def updateGate (key : String) (f : AccountGate → AccountGate) (s : AccountSemaphore) :
    AccountSemaphore :=
  { s with gates := s.gates.modify key f }

/-- `clearCleanupTimer` for the gate of `key`. -/
def clearCleanupTimer (key : String) (s : AccountSemaphore) : AccountSemaphore :=
  { s with cleanupTimers := s.cleanupTimers.filter (· ≠ ⟨key, false⟩) }

def ensureGate (key : String) (maxConcurrency : ℤ) (s : AccountSemaphore) : AccountSemaphore :=
  match s.gates.get key with
  | some _ => s.updateGate key fun gate => { gate with maxConcurrency := maxConcurrency }
  | none => { s with gates := s.gates.set key (.fresh maxConcurrency) }

def cleanupGateIfIdle (key : String) (s : AccountSemaphore) : AccountSemaphore :=
  match s.gates.get key with
  | none => s
  | some gate =>
      if gate.running > 0 ∨ gate.queue.length > 0 ∨ gate.isBlocked s.now then s
      else { s.clearCleanupTimer key with gates := s.gates.delete key }

def scheduleCleanup (key : String) (s : AccountSemaphore) : AccountSemaphore :=
  let cleared := s.clearCleanupTimer key
  { cleared with cleanupTimers := cleared.cleanupTimers ++ [⟨key, false⟩] }

/-- Schedule the cleanup of a gate nobody holds or waits for. -/
def scheduleIfIdle (key : String) (s : AccountSemaphore) : AccountSemaphore :=
  match s.gates.get key with
  | none => s
  | some gate => if gate.isIdle then s.scheduleCleanup key else s

/-! ## Requests -/

def removeRequest (request : AcquireRequest) (s : AccountSemaphore) : AccountSemaphore :=
  request.keys.foldl
    (fun s key =>
      (s.updateGate key fun gate => { gate with queue := gate.queue.erase request.call }).scheduleIfIdle
        key)
    { s with queuedRequests := s.queuedRequests.erase request }

def canAcquire (s : AccountSemaphore) (request : AcquireRequest) : Bool :=
  request.keys.all fun key =>
    match s.gates.get key with
    | none => false
    | some gate => gate.hasRoom s.now && gate.queue.head? == some request.call

/-- Take a slot of every key. -/
def takeSlots (keys : List String) (s : AccountSemaphore) : AccountSemaphore :=
  keys.foldl
    (fun s key => s.updateGate key fun gate => { gate with running := gate.running + 1 }) s

/-- Resolve a call with a composite release function. -/
def resolve (call : ℕ) (keys : List String) (s : AccountSemaphore) : AccountSemaphore :=
  { s with
    granted := s.granted ++ [(call, keys)]
    permits := s.permits ++ [⟨call, keys, keys⟩] }

def reject (call : ℕ) (error : AcquireError) (s : AccountSemaphore) : AccountSemaphore :=
  { s with rejections := s.rejections ++ [(call, error)] }

/-- Admit a queued request. -/
def admitQueued (request : AcquireRequest) (s : AccountSemaphore) : AccountSemaphore :=
  ((s.removeRequest request).takeSlots request.keys).resolve request.call request.keys

/-- `drainQueues`: admit the first request that can be admitted, and start over. Each round
takes a request out of `queuedRequests`, so its length bounds the rounds. -/
def drainRounds : ℕ → AccountSemaphore → AccountSemaphore
  | 0, s => s
  | n + 1, s =>
      match s.queuedRequests.find? s.canAcquire with
      | none => s
      | some request => drainRounds n (s.admitQueued request)

def drainQueues (s : AccountSemaphore) : AccountSemaphore :=
  drainRounds s.queuedRequests.length s

/-! ## The exported functions -/

/-- The loop of `acquireMany` that sets the limits up. It stops at the first key whose queue is
full, and the limits written so far stay. -/
def ensureGates (enabled : OrdMap String ℤ) (maxQueueSize : ℤ) :
    List String → AccountSemaphore → Option String × AccountSemaphore
  | [], s => (none, s)
  | key :: keys, s =>
      let s := (s.ensureGate key ((enabled.get key).getD 0)).clearCleanupTimer key
      let queued := ((s.gates.get key).map (·.queue.length)).getD 0
      if maxQueueSize > 0 ∧ queued ≥ maxQueueSize then (some key, s)
      else ensureGates enabled maxQueueSize keys s

/-- Every gate has room and nobody waits. -/
def fastPath (s : AccountSemaphore) (keys : List String) : Bool :=
  keys.all fun key =>
    match s.gates.get key with
    | none => false
    | some gate => gate.queue.isEmpty && gate.hasRoom s.now

def enqueue (request : AcquireRequest) (s : AccountSemaphore) : AccountSemaphore :=
  request.keys.foldl
    (fun s key => s.updateGate key fun gate => { gate with queue := gate.queue ++ [request.call] })
    { s with queuedRequests := s.queuedRequests ++ [request] }

/-- Call `call` of `acquireMany`; `step` numbers the calls. -/
def acquireManyAs (call : ℕ) (requirements : List SemaphoreRequirement)
    (options : AcquireManyOptions) (s : AccountSemaphore) : AccountSemaphore :=
  let enabled := enabledLimits requirements
  if enabled.size = 0 then { s with granted := s.granted ++ [(call, [])] }
  else
    match s.aborted.find? fun signal => some signal.1 = options.signal with
    | some (_, reason) => s.reject call (makeAbortError reason)
    | none =>
        let keys := sortedKeys enabled
        match s.ensureGates enabled options.maxQueueSize keys with
        | (some key, s) =>
            s.reject call (.semaphore "SEMAPHORE_QUEUE_FULL"
              s!"Semaphore queue full ({options.maxQueueSize}) for {key}")
        | (none, s) =>
            if s.fastPath keys then (s.takeSlots keys).resolve call keys
            else
              (s.enqueue { call := call, keys := keys, timeoutMs := options.timeoutMs,
                           due := s.now + options.timeoutMs, signal := options.signal }).drainQueues

/-- The release function of `createCompositeReleaseFn`, called for the first time. -/
def release (permit : Permit) (s : AccountSemaphore) : AccountSemaphore :=
  let s := { s with permits := s.permits.erase permit }
  let s := permit.keys.foldl
    (fun s key => s.updateGate key fun gate =>
      if gate.running > 0 then { gate with running := gate.running - 1 } else gate) s
  permit.keys.foldl (fun s key => s.scheduleIfIdle key) s.drainQueues

/-- The timeout of a queued request. -/
def expire (request : AcquireRequest) (s : AccountSemaphore) : AccountSemaphore :=
  let keys := ",".intercalate request.keys
  ((s.removeRequest request).reject request.call
    (.semaphore "SEMAPHORE_TIMEOUT"
      s!"Semaphore timeout after {request.timeoutMs}ms for {keys}")).drainQueues

/-- The abort listener of a request; it does nothing once the request is settled. -/
def abortRequest (error : AcquireError) (s : AccountSemaphore) (request : AcquireRequest) :
    AccountSemaphore :=
  if request ∈ s.queuedRequests then
    ((s.removeRequest request).reject request.call error).drainQueues
  else s

/-- A signal is aborted: its listeners run in the order they were added. -/
def abort (signal : ℕ) (reason : AbortReason) (s : AccountSemaphore) : AccountSemaphore :=
  (s.queuedRequests.filter (·.signal = some signal)).foldl
    (abortRequest (makeAbortError reason))
    { s with aborted := s.aborted ++ [(signal, reason)] }

/-- The time `markBlocked` blocks to. -/
def BlockUntil.toMs (now : ℕ) : BlockUntil → Option ℤ
  | .date ms => some ms
  | .duration ms => some (now + max 0 ms)
  | .notFinite => none

def markBlocked (key : String) («until» : BlockUntil) (s : AccountSemaphore) : AccountSemaphore :=
  match BlockUntil.toMs s.now «until» with
  | none => s
  | some untilMs =>
      if untilMs ≤ s.now then s
      else
        let maxConcurrency := ((s.gates.get key).map (·.maxConcurrency)).getD 1
        ((s.ensureGate key maxConcurrency).clearCleanupTimer key).updateGate key fun gate =>
          { gate with blockedUntil := some untilMs }

def unblock (key : String) (s : AccountSemaphore) : AccountSemaphore :=
  match s.gates.get key with
  | none => s
  | some _ =>
      (s.updateGate key fun gate => { gate with blockedUntil := none }).drainQueues.cleanupGateIfIdle
        key

/-- Remove a request for a reset, if it is still queued; its promise is rejected later. -/
def dropRequest (s : AccountSemaphore) (call : ℕ) : AccountSemaphore :=
  match s.queuedRequests.find? (·.call = call) with
  | none => s
  | some request => s.removeRequest request

/-- A reset of `key` makes the permits granted before it stale. -/
def forget (key : String) (s : AccountSemaphore) : AccountSemaphore :=
  { s with permits := s.permits.map fun p => { p with current := p.current.filter (· ≠ key) } }

def reset (key : String) (s : AccountSemaphore) : AccountSemaphore :=
  match s.gates.get key with
  | none => s
  | some gate =>
      let error : AcquireError := .semaphore "SEMAPHORE_RESET" s!"Semaphore reset for {key}"
      let dropped := gate.queue.foldl dropRequest (s.clearCleanupTimer key)
      let deleted : AccountSemaphore :=
        { dropped with
          gates := dropped.gates.delete key
          cleanupTimers := dropped.cleanupTimers.map fun t =>
            if t.key = key then { t with orphan := true } else t }
      (gate.queue.foldl (fun s call => s.reject call error) deleted).drainQueues

def resetAll (s : AccountSemaphore) : AccountSemaphore :=
  let dropped := s.queuedRequests.foldl (fun s request => s.removeRequest request) s
  let cleared : AccountSemaphore :=
    { dropped with
      cleanupTimers := dropped.cleanupTimers.filter fun t =>
        t.orphan ∨ (dropped.gates.get t.key).isNone
      gates := .empty
      queuedRequests := [] }
  s.queuedRequests.foldl
    (fun s request => s.reject request.call (.semaphore "SEMAPHORE_RESET" "Semaphore reset")) cleared

/-! ## Events -/

inductive Event
  | acquireMany (requirements : List SemaphoreRequirement) (options : AcquireManyOptions)
  /-- The release function that call `call` was handed is called. -/
  | release (call : ℕ)
  | timeout (request : AcquireRequest)
  | abort (signal : ℕ) (reason : AbortReason)
  | markBlocked (key : String) («until» : BlockUntil)
  | unblock (key : String)
  | reset (key : String)
  | resetAll
  | cleanup (t : CleanupTimer)
  | advance (dt : ℕ)

/-- One event. Timers fire once they are due; a release function that has been called, or that
a bypassed call was handed, does nothing; a signal is aborted once. -/
def step (s : AccountSemaphore) : Event → Option AccountSemaphore
  | .acquireMany requirements options =>
      some { s.acquireManyAs s.calls requirements options with calls := s.calls + 1 }
  | .release call =>
      match s.permits.find? (·.call = call) with
      | some permit => some (s.release permit)
      | none => if s.granted.any (·.1 = call) then some s else none
  | .timeout request =>
      if request ∈ s.queuedRequests ∧ request.due ≤ s.now then some (s.expire request) else none
  | .abort signal reason =>
      if s.aborted.any (·.1 = signal) then none else some (s.abort signal reason)
  | .markBlocked key «until» => some (s.markBlocked key «until»)
  | .unblock key => some (s.unblock key)
  | .reset key => some (s.reset key |>.forget key)
  | .resetAll =>
      some { s.resetAll with permits := s.permits.map fun p => { p with current := [] } }
  | .cleanup t =>
      if t ∈ s.cleanupTimers then
        some ({ s with cleanupTimers := s.cleanupTimers.erase t }.cleanupGateIfIdle t.key)
      else none
  | .advance dt => some { s with now := s.now + dt }

end AccountSemaphore

end OmniRoute
