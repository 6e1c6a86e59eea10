import OmniRoute.Admission.Controller
import OmniRoute.Admission.QueueItems

/-!
# What the controller's operations are made of

Each operation is a sequence of few elementary changes. A dispatch serves an entry of the shared
queue, serves an entry of a lane, or drops an empty lane, again and again
(`dispatch_induct`); the other loops have rules of the same kind. What every elementary change
preserves, every operation preserves.
-/

namespace OmniRoute.AdmissionController

open JsNumber

variable {F : Type} [JsNumber F]

/-- What the limit leaves. -/
def available (s : AdmissionController F) : ℤ := s.adaptation.currentLimit - s.activeCost

/-! ## Elementary changes -/

section

variable (s : AdmissionController F)

/-- A sample changes the window's integral only. -/
theorem sampleIntegral_eq :
    ∃ integral t, s.sampleIntegral = { s with
      adaptation := { s.adaptation with windowActiveCostIntegral := integral }
      lastSampleMs := t } := by
  unfold sampleIntegral
  dsimp only
  split
  · obtain ⟨integral, h⟩ := sampleActiveIntegral_eq s.adaptation
      (if s.adaptation.currentLimit ≤ s.activeCost then s.adaptation.currentLimit
        else s.activeCost) (s.now - s.lastSampleMs)
    exact ⟨integral, s.now, by rw [h]⟩
  · exact ⟨s.adaptation.windowActiveCostIntegral, s.lastSampleMs, rfl⟩

theorem admitEntry_eq (cost : ℤ) (disposition : VirtualDisposition) :
    ∃ integral t, s.admitEntry cost disposition = ({ s with
      adaptation := { s.adaptation with windowActiveCostIntegral := integral }
      lastSampleMs := t
      leaseSeq := s.leaseSeq + 1
      active := s.active.set (s.leaseSeq + 1) ⟨cost, s.now, disposition⟩
      activeCost := s.activeCost + cost
      admittedCount := s.admittedCount + 1
      admissions := s.admissions ++
        [⟨cost, s.adaptation.currentLimit, s.activeCost + cost⟩] }, s.leaseSeq + 1) := by
  obtain ⟨integral, t, h⟩ := s.sampleIntegral_eq
  refine ⟨integral, t, ?_⟩
  unfold admitEntry
  rw [h]

section

variable (entry : QueueEntry QueuedPayload)

theorem admitQueued_eq :
    ∃ integral t, s.admitQueued entry = { s with
      timers := s.timers.delete entry.id
      listeners := s.listeners.filter (·.1 ≠ entry.id)
      adaptation := { s.adaptation with windowActiveCostIntegral := integral }
      lastSampleMs := t
      leaseSeq := s.leaseSeq + 1
      active := s.active.set (s.leaseSeq + 1) ⟨entry.cost, s.now, .none⟩
      activeCost := s.activeCost + entry.cost
      admittedCount := s.admittedCount + 1
      admissions := s.admissions ++
        [⟨entry.cost, s.adaptation.currentLimit, s.activeCost + entry.cost⟩]
      settled := s.settled ++ [(entry.id, .resolved (s.leaseSeq + 1))] } := by
  obtain ⟨integral, t, h⟩ :=
    ((s.clearEntryTimer entry).detachAbort entry).admitEntry_eq entry.cost .none
  refine ⟨integral, t, ?_⟩
  unfold admitQueued
  rw [h]
  rfl

theorem failQueued_eq (code : AdmissionRejectCode) (message : String) :
    s.failQueued entry code message = { s with
      timers := s.timers.delete entry.id
      listeners := s.listeners.filter (·.1 ≠ entry.id)
      settled := s.settled ++ [(entry.id, .rejected code message)]
      rejectedCount := s.rejectedCount + 1 } :=
  rfl

/-- A dequeued entry is admitted or rejected. -/
theorem serveEntry_cases :
    s.serveEntry entry = (s.admitQueued entry, true) ∨
      ∃ code message, s.serveEntry entry = (s.failQueued entry code message, false) := by
  unfold serveEntry
  split
  · exact Or.inr ⟨_, _, rfl⟩
  · split
    · exact Or.inr ⟨_, _, rfl⟩
    · exact Or.inl rfl

end

theorem removeEmptyLane_cases (key : String) :
    s.removeEmptyLane key = s ∨ ∃ lane, s.virtualLanes.get key = some lane ∧
      lane.queue.count = 0 ∧
      s.removeEmptyLane key = { s with virtualLanes := s.virtualLanes.delete key } := by
  unfold removeEmptyLane
  cases h : s.virtualLanes.get key with
  | none => exact Or.inl rfl
  | some lane =>
    dsimp only
    split
    · next hcount => exact Or.inr ⟨lane, rfl, hcount, rfl⟩
    · exact Or.inl rfl

end

/-- The state with another queue in a lane. -/
def putLane (s : AdmissionController F) (key : String) (lane : AdmissionLane)
    (q : FairCostQueue QueuedPayload) : AdmissionController F :=
  { s with virtualLanes := s.virtualLanes.set key { lane with queue := q } }

theorem findInLanes_some {id : ℕ} {lanes : List (String × AdmissionLane)} {key : String}
    {lane' : AdmissionLane} {entry : QueueEntry QueuedPayload}
    (h : findInLanes id lanes = some (key, lane', entry)) :
    ∃ lane, (key, lane) ∈ lanes ∧ lane'.lastUsedMs = lane.lastUsedMs ∧
      lane.queue.removeById id = some (entry, lane'.queue) := by
  induction lanes with
  | nil => cases h
  | cons p lanes ih =>
    rw [findInLanes] at h
    cases hrem : p.2.queue.removeById id with
    | none =>
      rw [hrem] at h
      obtain ⟨lane, hmem, hfound⟩ := ih h
      exact ⟨lane, List.mem_cons_of_mem _ hmem, hfound⟩
    | some r =>
      rw [hrem] at h
      obtain ⟨rfl, rfl, rfl⟩ := h
      exact ⟨p.2, List.mem_cons_self, rfl, hrem⟩

/-! ## Evictions -/

/-- The states differ in rejected entries and in the lanes only. -/
def EvictsOnly (s t : AdmissionController F) : Prop :=
  t = { s with
    virtualLanes := t.virtualLanes
    laneEvictionTimer := t.laneEvictionTimer
    timers := t.timers
    listeners := t.listeners
    settled := t.settled
    rejectedCount := t.rejectedCount }

variable {s t : AdmissionController F}

theorem EvictsOnly.trans {u : AdmissionController F} (h₁ : EvictsOnly s t) (h₂ : EvictsOnly t u) :
    EvictsOnly s u := by
  unfold EvictsOnly at h₁ h₂ ⊢
  rw [h₁] at h₂
  exact h₂

theorem failAll_evictsOnly (code : AdmissionRejectCode) (message : String)
    (es : List (QueueEntry QueuedPayload)) (s : AdmissionController F) :
    EvictsOnly s (es.foldl (fun t entry => t.failQueued entry code message) s) := by
  induction es generalizing s with
  | nil => rfl
  | cons entry es ih =>
    have hfirst : EvictsOnly s (s.failQueued entry code message) := by
      rw [failQueued_eq]
      rfl
    exact hfirst.trans (ih _)

section

variable (s : AdmissionController F)

theorem removeEmptyLane_evictsOnly (key : String) : EvictsOnly s (s.removeEmptyLane key) := by
  rcases s.removeEmptyLane_cases key with heq | ⟨lane, -, -, heq⟩
  · rw [heq]
    rfl
  · rw [heq]
    rfl

theorem deleteLane_evictsOnly (key : String) : EvictsOnly s (s.deleteLane key) := by
  unfold deleteLane
  cases s.virtualLanes.get key with
  | none => rfl
  | some lane =>
    apply EvictsOnly.trans (failAll_evictsOnly .laneEvicted "connection lane evicted"
      lane.queue.drain.1 s)
    rfl

theorem evictIdleLanes_evictsOnly : EvictsOnly s s.evictIdleLanes := by
  have hkeys : ∀ (keys : List String) (s : AdmissionController F),
      EvictsOnly s (keys.foldl deleteLane s) := by
    intro keys
    induction keys with
    | nil => exact fun _ => rfl
    | cons key keys ih => exact fun s => (deleteLane_evictsOnly s key).trans (ih _)
  unfold evictIdleLanes
  dsimp only
  split
  · exact (hkeys _ s).trans rfl
  · exact (hkeys _ s).trans rfl

theorem getOrCreateLane_evictsOnly (key : String) : EvictsOnly s (s.getOrCreateLane key).1 := by
  unfold getOrCreateLane
  cases s.virtualLanes.get key with
  | some lane => rfl
  | none =>
    dsimp only
    split
    · cases s.oldestLaneKey with
      | none => rfl
      | some oldest => exact (deleteLane_evictsOnly s oldest).trans rfl
    · rfl

end

theorem enqueueLane_evictsOnly {entry : QueueEntry QueuedPayload} {accepted : Bool}
    (h : s.enqueueLane entry = (t, accepted)) : EvictsOnly s t := by
  have hcreate := getOrCreateLane_evictsOnly s entry.tenantKey
  obtain rfl : (s.enqueueLane entry).1 = t := congrArg Prod.fst h
  unfold enqueueLane
  dsimp only
  cases (s.getOrCreateLane entry.tenantKey).2.queue.enqueue entry with
  | none => exact hcreate.trans (removeEmptyLane_evictsOnly _ _)
  | some q => exact hcreate.trans rfl

/-! ## The parts of an acquire -/

/-- The pressure that comes with a request is noted first. -/
def notePressure (s : AdmissionController F) (request : AdmissionRequest F) :
    AdmissionController F :=
  match request.pressure with
  | some pressure => { s with adaptation := setPressure s.adaptation pressure }
  | none => s

/-- The rest of an `acquire`, which depends on the mode. -/
def acquireMode (s : AdmissionController F) (request : AdmissionRequest F) :
    AdmissionController F × Except String AdmissionAcquireResult :=
  match s.resolveCost request with
  | .error message => (s, .error message)
  | .ok cost =>
    match s.config.mode with
    | .off =>
      let (s, lease) := s.admitVirtual
      (s, .ok (.admitted lease none))
    | .shadow =>
      let (s, lease, decision) := s.acquireShadow request cost s.adaptation.currentLimit
      (s, .ok (.admitted lease (some decision)))
    | .enforce => s.acquireEnforce request cost s.adaptation.currentLimit

section

variable (s : AdmissionController F)

theorem call_cases (request : AdmissionRequest F) : s.call request = (s.acquire request).1 ∨
    ∃ calls, s.call request = { (s.acquire request).1 with calls } := by
  unfold call
  rcases s.acquire request with ⟨t, error | result⟩
  · exact .inl rfl
  · exact .inr ⟨_, rfl⟩

theorem acquire_eq (request : AdmissionRequest F) :
    s.acquire request =
      if s.shutDown then s.reject .shutdown "admission controller is shut down"
      else if request.signal.any (· ∈ s.aborted) then
        s.reject .aborted "request aborted before acquire"
      else (s.notePressure request).acquireMode request :=
  rfl

theorem notePressure_eq (request : AdmissionRequest F) :
    ∃ adaptation, adaptation.currentLimit = s.adaptation.currentLimit ∧
      s.notePressure request = { s with adaptation } := by
  unfold notePressure
  cases request.pressure with
  | none => exact ⟨s.adaptation, rfl, rfl⟩
  | some pressure => exact ⟨_, setPressure_currentLimit s.adaptation pressure, rfl⟩

/-! ## The parts before a dispatch -/

/-- A release up to its dispatch. -/
def released (s : AdmissionController F) (id : ℕ) (record : ActiveLeaseRecord)
    (outcome : AdmissionReleaseOutcome) (info : AdmissionReleaseMeta F) : AdmissionController F :=
  let s := s.sampleIntegral
  let s := { s with active := s.active.delete id, activeCost := s.activeCost - record.cost }
  let latency : F := info.latencyMs.getD (lit (Max.max 0 (s.now - record.admittedAtMs) : ℤ))
  let adaptation := noteOutcome (noteLatency s.adaptation latency s.config.adaptation) outcome
  let adaptation := { adaptation with windowCompleted := adaptation.windowCompleted + 1 }
  let adaptation :=
    match info.pressure with
    | some pressure => setPressure adaptation pressure
    | none => adaptation
  { s with adaptation }.releaseVirtual id record

theorem releaseLease_eq (id : ℕ) (outcome : AdmissionReleaseOutcome)
    (info : AdmissionReleaseMeta F) : s.releaseLease id outcome info =
      match s.active.get id with
      | none => s
      | some record => (s.released id record outcome info).dispatch :=
  rfl

/-- An expiry up to its dispatch, if the entry is queued. -/
def expired (s : AdmissionController F) (id : ℕ) (code : AdmissionRejectCode) (message : String) :
    Option (AdmissionController F) :=
  (s.withdraw id).map fun r => r.1.failQueued r.2 code message

theorem expireEntry_eq (id : ℕ) (code : AdmissionRejectCode) (message : String) :
    s.expireEntry id code message = ((s.expired id code message).map dispatch).getD s := by
  unfold expireEntry expired
  cases s.withdraw id with
  | _ => rfl

/-- The end of a window up to its dispatch. -/
def windowClosed (s : AdmissionController F) : AdmissionController F :=
  let s := s.sampleIntegral.evictIdleLanes
  { s with adaptation := closeAdaptationWindow s.adaptation s.config.adaptation s.now }

theorem tick_eq : s.tick = s.windowClosed.dispatch.dispatchVirtual :=
  rfl

/-- An observed critical pressure up to its dispatch. -/
def limitCut (s : AdmissionController F) (pressure : AdmissionPressure) : AdmissionController F :=
  let s := { s with adaptation := setPressure s.adaptation pressure }
  { s with adaptation := { s.adaptation with
    currentLimit := Max.max s.config.minLimit
      (scaleLimit s.adaptation.currentLimit s.config.adaptation.criticalDecreaseFactor)
    criticalDecreaseConsumed := true } }

theorem observePressure_eq (pressure : AdmissionPressure) :
    s.observePressure pressure =
      if pressure = .critical ∧
          (setPressure s.adaptation pressure).criticalDecreaseConsumed = false then
        (s.limitCut pressure).dispatch.dispatchVirtual
      else { s with adaptation := setPressure s.adaptation pressure } :=
  rfl

/-! ## The parts of a reconfiguration -/

/-- The state with the new limits and empty queues. -/
def clearedFor (s : AdmissionController F) (next : ValidatedConfig F) : AdmissionController F :=
  { s with
    config := next
    adaptation := { s.adaptation with
      currentLimit := Min.min next.maxLimit (Max.max next.minLimit s.adaptation.currentLimit)
      recoveryCeiling := clampLimit next.initialLimit next.minLimit next.maxLimit
      windowStartMs := s.now
      windowActiveCostIntegral := 0
      windowCompleted := 0
      windowLatencySamples := 0
      freezeGrowth := false
      criticalDecreaseConsumed := false
      pressure := .normal }
    lastSampleMs := s.now
    queue := .new next.maxQueueCount next.maxQueueCost
    virtualLanes := .empty
    laneEvictionTimer := none }

/-- All that is queued. -/
def drainAll (s : AdmissionController F) : List (QueueEntry QueuedPayload) :=
  s.queue.drain.1 ++ s.virtualLanes.values.flatMap fun lane => lane.queue.drain.1

/-- What was queued is queued again, under the new configuration. -/
def reseat (s : AdmissionController F) (next : ValidatedConfig F) : AdmissionController F :=
  s.drainAll.foldl requeue (s.clearedFor next)

/-- The last part of a reconfiguration. -/
def rearm (s : AdmissionController F) : AdmissionController F :=
  (s.rebuildVirtualState (s.config.mode = .shadow)).armWindowTimer

theorem requeue_config (entry : QueueEntry QueuedPayload) :
    (s.requeue entry).config = s.config := by
  unfold requeue
  split
  · obtain ⟨integral, time, heq⟩ := s.admitQueued_eq entry
    rw [heq]
  split
  · rfl
  split
  · rfl
  · rfl

theorem reseat_config (next : ValidatedConfig F) : (s.reseat next).config = next := by
  have hall : ∀ (es : List (QueueEntry QueuedPayload)) (t : AdmissionController F),
      (es.foldl requeue t).config = t.config := by
    intro es
    induction es with
    | nil => exact fun _ => rfl
    | cons entry es ih => exact fun t => (ih (t.requeue entry)).trans (requeue_config t entry)
  exact hall s.drainAll (s.clearedFor next)

theorem reconfigure_eq (next : ValidatedConfig F) :
    s.reconfigure next =
      if next.mode = .enforce then (s.sampleIntegral.reseat next).rearm.dispatch
      else (s.sampleIntegral.reseat next).rearm := by
  unfold rearm
  rw [reseat_config]
  rfl

end

/-! ## Timers -/

theorem step_deadline {entry : ℕ} (h : s.step (.deadline entry) = some t) :
    ∃ due, s.timers.get entry = some due ∧ due ≤ s.now ∧
      t = { s with timers := s.timers.delete entry }.expireEntry entry .deadline
        "admission wait deadline exceeded" := by
  rw [step] at h
  cases hget : s.timers.get entry with
  | none =>
    rw [hget] at h
    cases h
  | some due =>
    rw [hget] at h
    dsimp only at h
    split at h
    · next hdue => exact ⟨due, rfl, hdue, (Option.some.inj h).symm⟩
    · cases h

theorem step_windowTimer (h : s.step .windowTimer = some t) : t = s.tick.armWindowTimer := by
  rw [step] at h
  split at h
  · cases h
  split at h
  · exact (Option.some.inj h).symm
  · cases h

theorem step_laneTimer (h : s.step .laneTimer = some t) : t = s.evictIdleLanes := by
  rw [step] at h
  split at h
  · cases h
  split at h
  · exact (Option.some.inj h).symm
  · cases h

/-! ## Loops -/

section

variable {P : AdmissionController F → Prop}
  (shared : ∀ (s : AdmissionController F) entry q, P s → 0 < s.available →
    s.queue.dequeue s.available = some (entry, q) → P ({ s with queue := q }.serveEntry entry).1)
  (lane : ∀ (s : AdmissionController F) key lane entry q, P s → 0 < s.available →
    s.virtualLanes.get key = some lane → lane.queue.dequeue s.available = some (entry, q) →
      P ((s.putLane key lane q).serveEntry entry).1)
  (drop : ∀ (s : AdmissionController F) key, P s → P (s.removeEmptyLane key))

include lane in
theorem dispatchLane_induct (key : String) (n : ℕ) {s : AdmissionController F} (hs : P s) :
    P (dispatchLane key n s).1 := by
  induction n generalizing s with
  | zero => exact hs
  | succ n ih =>
    rw [dispatchLane]
    cases hget : s.virtualLanes.get key with
    | none => exact hs
    | some l =>
      dsimp only
      split
      · exact hs
      split
      · exact hs
      next hpos =>
        cases hdeq : l.queue.dequeue (s.adaptation.currentLimit - s.activeCost) with
        | none => exact hs
        | some r =>
          obtain ⟨entry, q⟩ := r
          have hnext := lane s key l entry q hs (not_le.1 hpos) hget hdeq
          dsimp only
          split
          · next s' hserve =>
            rw [show (s.putLane key l q).serveEntry entry = (s', true) from hserve] at hnext
            exact hnext
          · next s' hserve =>
            rw [show (s.putLane key l q).serveEntry entry = (s', false) from hserve] at hnext
            exact ih hnext

include lane drop in
theorem dispatchKeys_induct (keys : List String) {s : AdmissionController F} (hs : P s) :
    P (dispatchKeys keys s) := by
  induction keys generalizing s with
  | nil => exact hs
  | cons key keys ih =>
    rw [dispatchKeys]
    cases hget : s.virtualLanes.get key with
    | none => exact ih hs
    | some l =>
      have hlane := dispatchLane_induct lane key l.queue.count hs
      dsimp only
      rcases hd : dispatchLane key l.queue.count s with ⟨s', stop⟩
      rw [hd] at hlane
      cases stop with
      | true => exact hlane
      | false => exact ih (drop s' key hlane)

include lane drop in
theorem dispatchLanes_induct {s : AdmissionController F} (hs : P s) : P s.dispatchLanes := by
  unfold dispatchLanes
  split
  · exact hs
  split
  · exact hs
  · exact dispatchKeys_induct lane drop _ hs

include shared in
theorem dispatchLoop_induct (n : ℕ) {s : AdmissionController F} (hs : P s) :
    P (dispatchLoop n s).1 := by
  induction n generalizing s with
  | zero => exact hs
  | succ n ih =>
    rw [dispatchLoop]
    split
    · exact hs
    dsimp only
    split
    · exact hs
    next hpos =>
      cases hdeq : s.queue.dequeue (s.adaptation.currentLimit - s.activeCost) with
      | none => exact hs
      | some r => exact ih (shared s r.1 r.2 hs (not_le.1 hpos) hdeq)

include shared lane drop in
/-- What a service and the end of a lane preserve, a dispatch preserves. -/
theorem dispatch_induct {s : AdmissionController F} (hs : P s) : P s.dispatch := by
  unfold dispatch
  split
  · exact hs
  have hloop := dispatchLoop_induct shared s.queue.count hs
  rcases hd : dispatchLoop s.queue.count s with ⟨s', done⟩
  rw [hd] at hloop
  cases done with
  | false => exact hloop
  | true => exact dispatchLanes_induct lane drop hloop

end

/-! ## The virtual ledger -/

/-- The states differ in the virtual ledger and the dispositions only. -/
def VirtualOnly (s t : AdmissionController F) : Prop :=
  t = { s with
    virtualQueue := t.virtualQueue
    active := t.active
    virtualActiveCost := t.virtualActiveCost
    virtualActiveCount := t.virtualActiveCount }

theorem VirtualOnly.trans {u : AdmissionController F} (h₁ : VirtualOnly s t)
    (h₂ : VirtualOnly t u) : VirtualOnly s u := by
  unfold VirtualOnly at h₁ h₂ ⊢
  rw [h₁] at h₂
  exact h₂

theorem dispatchVirtualLoop_virtualOnly (n : ℕ) (s : AdmissionController F) :
    VirtualOnly s (dispatchVirtualLoop n s) := by
  induction n generalizing s with
  | zero => rfl
  | succ n ih =>
    rw [dispatchVirtualLoop]
    split
    · rfl
    dsimp only
    split
    · rfl
    cases s.virtualQueue.dequeue (s.adaptation.currentLimit - s.virtualActiveCost) with
    | none => rfl
    | some r =>
      dsimp only
      split
      · apply VirtualOnly.trans ?_ (ih _)
        rfl
      · apply VirtualOnly.trans ?_ (ih _)
        rfl

section

variable (s : AdmissionController F)

theorem dispatchVirtual_virtualOnly : VirtualOnly s s.dispatchVirtual :=
  dispatchVirtualLoop_virtualOnly _ s

theorem releaseVirtual_virtualOnly (id : ℕ)
    (record : ActiveLeaseRecord) : VirtualOnly s (s.releaseVirtual id record) := by
  unfold releaseVirtual
  dsimp only
  apply VirtualOnly.trans ?_ (dispatchVirtual_virtualOnly _)
  split
  · rfl
  · split
    · rfl
    · rfl
  · rfl

theorem classify_virtualOnly (id : ℕ) : VirtualOnly s (s.classify id) := by
  unfold classify
  split
  · rfl
  split
  · rfl
  split
  · rfl
  dsimp only
  split
  · rfl
  · rfl

theorem classifyAll_virtualOnly (ids : List ℕ) (s : AdmissionController F) :
    VirtualOnly s (ids.foldl classify s) := by
  induction ids generalizing s with
  | nil => rfl
  | cons id ids ih => exact (classify_virtualOnly s id).trans (ih (s.classify id))

theorem rebuildVirtualState_virtualOnly (enable : Bool) :
    VirtualOnly s (s.rebuildVirtualState enable) := by
  unfold rebuildVirtualState
  dsimp only
  split
  · apply VirtualOnly.trans ?_ (classifyAll_virtualOnly _ _)
    rfl
  · rfl

end

end OmniRoute.AdmissionController
