import OmniRoute.Lib.OrdMap
import OmniRoute.Lib.Trace

/-!
# The sliding window limiter

`open-sse/services/slidingWindowLimiter.ts`: for each key the hits that still count are kept, and a
call is allowed when all its scopes have room. A lease takes back the hits of a call that was never
dispatched.

The clock is part of each call. Next to the limiter and the leases it gave out, a `State` keeps the
hits that were granted and not released, which the code does not: it forgets those that have aged.
-/

namespace OmniRoute.SlidingWindow

/-! ## Data -/

structure RateLimitWindow where
  requests : ℤ
  windowMs : ℚ
  deriving DecidableEq

structure RateLimitScope where
  key : String
  window : RateLimitWindow
  deriving DecidableEq

structure Hit where
  id : ℕ
  timestamp : ℚ
  deriving DecidableEq

/-- What a lease remembers of a hit. -/
structure LeaseEntry where
  key : String
  id : ℕ
  deriving DecidableEq

structure AcquireResult where
  allowed : Bool
  retryAfterMs : ℚ
  deriving DecidableEq

structure MultiAcquireResult extends AcquireResult where
  lease : Option (List LeaseEntry)
  deriving DecidableEq

def maxKeys : ℕ := 5000

structure Limiter where
  hits : OrdMap String (List Hit)
  nextHitId : ℕ

namespace Limiter

def new : Limiter := ⟨.empty, 1⟩

/-- The hits that are kept for a key. -/
def hitsOf (l : Limiter) (key : String) : List Hit := (l.hits.get key).getD []

/-- A new key takes the place of the oldest one when there are too many. -/
def set (l : Limiter) (key : String) (live : List Hit) : Limiter :=
  if live = [] then { l with hits := l.hits.delete key }
  else
    let hits :=
      if l.hits.get key = none ∧ maxKeys ≤ l.hits.size then
        match l.hits.keys.head? with
        | some oldest => l.hits.delete oldest
        | none => l.hits
      else l.hits
    { l with hits := hits.set key live }

end Limiter

/-! ## Acquiring -/

def RateLimitScope.isActive (scope : RateLimitScope) : Bool :=
  0 < scope.window.requests ∧ 0 < scope.window.windowMs

structure Prepared where
  scope : RateLimitScope
  live : List Hit
  retryAfterMs : ℚ

/-- How long the oldest of the live hits of a saturated scope still counts; no active scope is
saturated without a hit. -/
def RateLimitScope.retryAfter (scope : RateLimitScope) (now : ℚ) (live : List Hit) : ℚ :=
  if scope.window.requests ≤ live.length then
    live.head?.elim 0 fun oldest => max 0 (oldest.timestamp + scope.window.windowMs - now)
  else 0

namespace Limiter

def prepare (l : Limiter) (now : ℚ) (scope : RateLimitScope) : Prepared :=
  let cutoff := now - scope.window.windowMs
  let live := (l.hitsOf scope.key).filter fun hit => cutoff < hit.timestamp
  ⟨scope, live, scope.retryAfter now live⟩

/-- The aged hits of the scopes are dropped. -/
def setAll (l : Limiter) (prepared : List Prepared) : Limiter :=
  prepared.foldl (fun l entry => l.set entry.scope.key entry.live) l

/-- A hit is recorded for each scope. -/
def record (l : Limiter) (now : ℚ) : List Prepared → Limiter × List LeaseEntry
  | [] => (l, [])
  | entry :: prepared =>
    let hit : Hit := ⟨l.nextHitId, now⟩
    let l := { l with nextHitId := l.nextHitId + 1 }.set entry.scope.key (entry.live ++ [hit])
    let (l, entries) := l.record now prepared
    (l, ⟨entry.scope.key, hit.id⟩ :: entries)

def tryAcquireMany (l : Limiter) (now : ℚ) (scopes : List RateLimitScope) :
    Limiter × MultiAcquireResult :=
  let activeScopes := scopes.filter RateLimitScope.isActive
  if activeScopes = [] then (l, ⟨⟨true, 0⟩, none⟩)
  else
    let prepared := activeScopes.map (l.prepare now)
    let retryAfterMs := (prepared.map Prepared.retryAfterMs).foldl max 0
    let l := l.setAll prepared
    if 0 < retryAfterMs then (l, ⟨⟨false, retryAfterMs⟩, none⟩)
    else
      let (l, entries) := l.record now prepared
      (l, ⟨⟨true, 0⟩, some entries⟩)

def tryAcquire (l : Limiter) (now : ℚ) (key : String) (window : RateLimitWindow) :
    Limiter × AcquireResult :=
  let (l, result) := l.tryAcquireMany now [⟨key, window⟩]
  (l, result.toAcquireResult)

def releaseEntry (l : Limiter) (entry : LeaseEntry) : Limiter :=
  match l.hits.get entry.key with
  | none => l
  | some live =>
    let remaining := live.filter fun hit => hit.id ≠ entry.id
    if remaining = [] then { l with hits := l.hits.delete entry.key }
    else { l with hits := l.hits.set entry.key remaining }

/-- `release` of a lease with these entries, the first time. -/
def release (l : Limiter) (entries : List LeaseEntry) : Limiter := entries.foldl releaseEntry l

end Limiter

/-! ## Runs -/

structure Lease where
  entries : List LeaseEntry
  released : Bool

/-- A hit that was granted. -/
structure Grant where
  key : String
  hit : Hit
  deriving DecidableEq

structure State where
  limiter : Limiter
  leases : List Lease
  clock : ℚ
  /-- The hits that were granted and not released, in the order of the grants. -/
  granted : List Grant

def State.start (clock : ℚ) : State := ⟨.new, [], clock, []⟩

/-- The hits of a lease given out at a time. -/
def grants (now : ℚ) (entries : List LeaseEntry) : List Grant :=
  entries.map fun entry => ⟨entry.key, entry.id, now⟩

/-- The hits among the grants that are of a key. -/
def hitsGranted (key : String) (granted : List Grant) : List Hit :=
  (granted.filter fun grant => grant.key = key).map Grant.hit

inductive Event
  | tryAcquire (now : ℚ) (key : String) (window : RateLimitWindow)
  | tryAcquireMany (now : ℚ) (scopes : List RateLimitScope)
  /-- The `release` of the lease of this number. -/
  | release (number : ℕ)

/-- What a call leaves, but for its lease. -/
def State.acquire (s : State) (now : ℚ) (scopes : List RateLimitScope) : State :=
  let (limiter, result) := s.limiter.tryAcquireMany now scopes
  { s with limiter, clock := now, granted := s.granted ++ grants now (result.lease.getD []) }

/-- One call; the clock does not go back. -/
def step (s : State) : Event → Option State
  | .tryAcquire now key window =>
    if now < s.clock then none
    else
      let limiter := (s.limiter.tryAcquire now key window).1
      some { s.acquire now [⟨key, window⟩] with limiter }
  | .tryAcquireMany now scopes =>
    if now < s.clock then none
    else
      let lease := (s.limiter.tryAcquireMany now scopes).2.lease
      some { s.acquire now scopes with leases := s.leases ++ (lease.map (⟨·, false⟩)).toList }
  | .release number =>
    match s.leases[number]? with
    | none => none
    | some lease =>
      if lease.released then some s
      else some {
        s with
        limiter := s.limiter.release lease.entries
        leases := s.leases.set number { lease with released := true }
        granted := s.granted.filter fun grant => ⟨grant.key, grant.hit.id⟩ ∉ lease.entries }

/-- The keys are few, each has its own window, and a call names each but once. -/
def ScopesFit (windowOf : String → RateLimitWindow) (keys : List String)
    (scopes : List RateLimitScope) : Prop :=
  (scopes.map RateLimitScope.key).Nodup ∧
    ∀ scope ∈ scopes, scope.key ∈ keys ∧ scope.window = windowOf scope.key

def Event.Fits (windowOf : String → RateLimitWindow) (keys : List String) : Event → Prop
  | .tryAcquire _ key window => ScopesFit windowOf keys [⟨key, window⟩]
  | .tryAcquireMany _ scopes => ScopesFit windowOf keys scopes
  | .release _ => True

end OmniRoute.SlidingWindow
