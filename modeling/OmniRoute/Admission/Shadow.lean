import OmniRoute.Admission.Budget

/-!
# Shadow decisions

In mode `shadow` every request is admitted and `acquireShadow` says what `enforce` would have done
with it. `enforceTwin` is the controller in mode `enforce` that the shadow state stands for: its
active leases are those of the virtual ledger and its queue is the virtual queue.

**Main result (`predicts_iff`).** Under normal pressure the decision is what the twin does, except
for three kinds of requests: one that fits while something waits (the twin queues it), one above
the limit while nothing is active and nothing waits (the twin admits it alone), and one that would
wait with a wait that is no positive safe integer (the twin throws).
-/

namespace OmniRoute

/-- The entry with another payload. -/
def QueueEntry.withPayload {τ υ : Type} (e : QueueEntry τ) (payload : υ) : QueueEntry υ :=
  { e with payload }

/-- The queue with another payload in every entry. -/
def FairCostQueue.withPayload {τ υ : Type} (q : FairCostQueue τ) (payload : υ) :
    FairCostQueue υ :=
  { q with buckets := q.buckets.map fun b => {
      tenant := b.tenant
      head := b.head.withPayload payload
      tail := b.tail.map fun e => e.withPayload payload } }

namespace AdmissionController

open FairCostQueue AdmissionController

variable {F : Type} [JsNumber F]

/-! ## The twin -/

/-- The leases that count in the virtual ledger. -/
def virtuallyActive (s : AdmissionController F) : OrdMap ℕ ActiveLeaseRecord where
  entries := (s.active.entries.filter fun p => p.2.virtualDisposition = .active).map fun p =>
    (p.1, { p.2 with virtualDisposition := .none })
  nodup := by
    rw [List.map_map]
    exact s.active.nodup.sublist (List.filter_sublist.map _)

/-- The controller in mode `enforce`, virtual lanes off, whose active cost is the virtual active
cost and whose queue is the virtual queue. -/
def enforceTwin (s : AdmissionController F) : AdmissionController F :=
  { s with
    config := { s.config with mode := .enforce, virtualLanes := false }
    active := s.virtuallyActive
    activeCost := s.virtualActiveCost
    virtualActiveCost := 0
    virtualActiveCount := 0
    queue := s.virtualQueue.withPayload ⟨none⟩
    virtualQueue := .new s.config.maxQueueCount s.config.maxQueueCost
    virtualLanes := .empty }

/-! ## The prediction -/

/-- The first result, of a shadow controller, says what the second one is. -/
def Predicts : Except String AdmissionAcquireResult → Except String AdmissionAcquireResult → Prop
  | .ok (.admitted _ (some .wouldAdmit)), .ok (.admitted _ _) => True
  | .ok (.admitted _ (some .wouldQueue)), .ok (.queued _) => True
  | .ok (.admitted _ (some .wouldReject)), .ok (.rejected _ _) => True
  | .ok (.rejected code message), r => r = .ok (.rejected code message)
  | .error message, r => r = .error message
  | _, _ => False

/-- The request fits, but others wait. -/
def JumpsQueue (s : AdmissionController F) (cost : ℤ) : Prop :=
  s.virtualActiveCost + cost ≤ s.adaptation.currentLimit ∧ cost ≤ s.adaptation.currentLimit ∧
    s.virtualQueue.count ≠ 0

/-- The request is above the limit, and the controller is idle. -/
def RunsSolo (s : AdmissionController F) (cost : ℤ) : Prop :=
  s.adaptation.currentLimit < cost ∧ cost ≤ s.config.maxLimit ∧ s.virtualQueue.count = 0 ∧
    ∀ record ∈ s.active.values, record.virtualDisposition ≠ .active

/-- The request would wait, for a time that is not allowed. -/
def BadWait (s : AdmissionController F) (request : AdmissionRequest F) (cost : ℤ) : Prop :=
  cost ≤ s.adaptation.currentLimit ∧ s.adaptation.currentLimit < s.virtualActiveCost + cost ∧
    s.virtualQueue.canAccept cost = true ∧ ∃ message, s.resolveMaxWait request = .error message

/-- The requests whose decision is wrong. -/
def Mispredicted (s : AdmissionController F) (request : AdmissionRequest F) : Prop :=
  s.shutDown = false ∧ request.signal.any (· ∈ s.aborted) = false ∧
    ∃ cost, s.resolveCost request = .ok cost ∧
      (s.JumpsQueue cost ∨ s.RunsSolo cost ∨ s.BadWait request cost)

variable {s : AdmissionController F}

theorem size_virtuallyActive :
    s.virtuallyActive.size = 0 ↔
      ∀ record ∈ s.active.values, record.virtualDisposition ≠ .active := by
  unfold OrdMap.size virtuallyActive OrdMap.values
  rw [List.length_map, List.length_eq_zero_iff, List.filter_eq_nil_iff]
  simp only [decide_eq_true_eq, List.mem_map]
  constructor
  · intro hall record ⟨p, hp, heq⟩
    exact heq ▸ hall p hp
  · intro hall p hp
    exact hall p.2 ⟨p, hp, rfl⟩

/-- The twin admits alone exactly the requests of `RunsSolo`. -/
theorem shouldAdmitSolo_enforceTwin (hnormal : s.adaptation.pressure = .normal) {cost : ℤ}
    (hover : s.adaptation.currentLimit < cost) :
    s.enforceTwin.shouldAdmitSolo cost = true ↔ s.RunsSolo cost := by
  have hlanes : s.enforceTwin.laneTotalQueuedCount = 0 := rfl
  unfold shouldAdmitSolo RunsSolo
  rw [hlanes, ← size_virtuallyActive]
  simp only [Bool.and_eq_true, decide_eq_true_eq]
  constructor
  · intro ⟨⟨⟨⟨hmax, hidle⟩, hempty⟩, _⟩, _⟩
    exact ⟨hover, hmax, hempty, hidle⟩
  · intro ⟨_, hmax, hempty, hidle⟩
    exact ⟨⟨⟨⟨hmax, hidle⟩, hempty⟩, trivial⟩, hnormal⟩

/-- The twin's queue accepts the same costs. -/
theorem canAccept_enforceTwin (s : AdmissionController F) (cost : ℤ) :
    s.enforceTwin.queue.canAccept cost = s.virtualQueue.canAccept cost :=
  rfl

/-- A request that the twin can queue is queued, unless its wait is not allowed. -/
theorem enqueue_enforceTwin (request : AdmissionRequest F) {cost : ℤ}
    (hacc : s.virtualQueue.canAccept cost = true) :
    (s.enforceTwin.enqueue request cost).2 =
      match s.resolveMaxWait request with
      | .error message => .error message
      | .ok _ => .ok (.queued (s.leaseSeq + 1)) := by
  have hwait : resolveMaxWait
      { s.enforceTwin with leaseSeq := s.enforceTwin.leaseSeq + 1 } request =
        s.resolveMaxWait request := rfl
  unfold enqueue
  dsimp only
  rw [hwait]
  cases s.resolveMaxWait request with
  | error message => rfl
  | ok maxWait =>
    dsimp only
    rw [if_neg (by simp [enforceTwin])]
    split
    · next henq =>
      rw [FairCostQueue.enqueue, if_pos (canAccept_enforceTwin s cost ▸ hacc)] at henq
      cases henq
    · rfl

/-- The decision about a request that costs `cost`, and what the twin does. -/
theorem predicts_cost (hnormal : s.adaptation.pressure = .normal)
    (request : AdmissionRequest F) {cost : ℤ} (hsafe : cost ≤ maxSafeInteger) (lease : ℕ) :
    Predicts (.ok (.admitted lease (some (s.shadowDecision cost s.adaptation.currentLimit))))
        (s.enforceTwin.acquireEnforce request cost s.adaptation.currentLimit).2 ↔
      ¬ (s.JumpsQueue cost ∨ s.RunsSolo cost ∨ s.BadWait request cost) := by
  unfold shadowDecision acquireEnforce
  by_cases hover : s.adaptation.currentLimit < cost
  · rw [if_pos (Or.inl hover), if_pos hover]
    have hjump : ¬ s.JumpsQueue cost := fun h => absurd h.2.1 (not_le.2 hover)
    have hbad : ¬ s.BadWait request cost := fun h => absurd h.1 (not_le.2 hover)
    by_cases hsolo : s.RunsSolo cost
    · rw [if_pos ((shouldAdmitSolo_enforceTwin hnormal hover).2 hsolo)]
      simp [Predicts, hsolo]
    · rw [if_neg (fun h => hsolo ((shouldAdmitSolo_enforceTwin hnormal hover).1 h))]
      simp [Predicts, reject, hsolo, hjump, hbad]
  · have hfits : cost ≤ s.adaptation.currentLimit := not_lt.1 hover
    have hsolo : ¬ s.RunsSolo cost := fun h => hover h.1
    rw [if_neg (by omega), if_neg hover]
    by_cases hroom : s.virtualActiveCost + cost ≤ s.adaptation.currentLimit
    · rw [if_pos hroom]
      have hbad : ¬ s.BadWait request cost := fun h => absurd hroom (not_le.2 h.2.1)
      by_cases hempty : s.virtualQueue.count = 0
      · rw [if_pos ⟨hempty, hroom⟩]
        simp [Predicts, JumpsQueue, hempty, hsolo, hbad]
      · rw [if_neg (fun h => hempty h.1)]
        have hjump : s.JumpsQueue cost := ⟨hroom, hfits, hempty⟩
        rw [canAccept_enforceTwin]
        by_cases hacc : s.virtualQueue.canAccept cost = true
        · rw [if_pos hacc, enqueue_enforceTwin request hacc]
          cases s.resolveMaxWait request with
          | _ => simp [Predicts, hjump]
        · rw [if_neg hacc]
          simp [Predicts, reject, hjump]
    · rw [if_neg hroom]
      have hjump : ¬ s.JumpsQueue cost := fun h => hroom h.1
      have hqueues : ¬ (s.enforceTwin.queue.count = 0 ∧
          s.enforceTwin.activeCost + cost ≤ s.adaptation.currentLimit) := fun h => hroom h.2
      rw [if_neg hqueues, canAccept_enforceTwin]
      by_cases hacc : s.virtualQueue.canAccept cost = true
      · rw [if_pos hacc, if_pos hacc, enqueue_enforceTwin request hacc]
        have hbad : s.BadWait request cost ↔
            ∃ message, s.resolveMaxWait request = .error message :=
          ⟨fun h => h.2.2.2, fun h => ⟨hfits, not_le.1 hroom, hacc, h⟩⟩
        cases hwait : s.resolveMaxWait request with
        | _ => simp [Predicts, hjump, hsolo, hbad, hwait]
      · rw [if_neg hacc, if_neg hacc]
        have hbad : ¬ s.BadWait request cost := fun h => hacc h.2.2.1
        simp [Predicts, reject, hjump, hsolo, hbad]

theorem acquireShadow_decision (s : AdmissionController F) (request : AdmissionRequest F)
    (cost limit : ℤ) : (s.acquireShadow request cost limit).2.2 = s.shadowDecision cost limit := by
  unfold acquireShadow
  cases s.shadowDecision cost limit with
  | wouldReject => rfl
  | wouldAdmit => rfl
  | wouldQueue =>
    dsimp only
    split
    · rfl
    · rfl

/-- Under normal pressure the decision of a shadow controller is what its twin in mode `enforce`
does, exactly unless the request is mispredicted. -/
theorem predicts_iff {s : AdmissionController F} (hmode : s.config.mode = .shadow)
    (hnormal : s.adaptation.pressure = .normal) {request : AdmissionRequest F}
    (hrequest : request.pressure = none ∨ request.pressure = some .normal) :
    Predicts (s.acquire request).2 (s.enforceTwin.acquire request).2 ↔
      ¬ s.Mispredicted request := by
  have hnote : s.notePressure request = s := by
    rcases hrequest with h | h
    · rw [notePressure, h]
    · rw [notePressure, h]
      rfl
  have hnote' : s.enforceTwin.notePressure request = s.enforceTwin := by
    rcases hrequest with h | h
    · rw [notePressure, h]
    · rw [notePressure, h]
      rfl
  have hshut : s.enforceTwin.shutDown = s.shutDown := rfl
  have haborted : s.enforceTwin.aborted = s.aborted := rfl
  have hcost : s.enforceTwin.resolveCost request = s.resolveCost request := rfl
  rw [acquire_eq, acquire_eq, hnote, hnote', hshut, haborted]
  unfold Mispredicted
  cases hdown : s.shutDown with
  | true => simp [Predicts, reject]
  | false =>
    cases habort : request.signal.any (· ∈ s.aborted) with
    | true => simp [Predicts, reject]
    | false =>
      rw [if_neg Bool.false_ne_true, if_neg Bool.false_ne_true, if_neg Bool.false_ne_true,
        if_neg Bool.false_ne_true]
      unfold acquireMode
      rw [hcost]
      cases hresolve : s.resolveCost request with
      | error message => simp [Predicts]
      | ok cost =>
        have hsafe : cost ≤ maxSafeInteger :=
          (resolveCost_mem hresolve).2.trans (by decide)
        have hpredicts := predicts_cost hnormal request hsafe
          (s.acquireShadow request cost s.adaptation.currentLimit).2.1
        rw [← acquireShadow_decision s request] at hpredicts
        dsimp only
        rw [hmode]
        refine hpredicts.trans (not_congr ?_)
        constructor
        · intro hwrong
          exact ⟨rfl, rfl, cost, rfl, hwrong⟩
        · intro ⟨_, _, cost', heq, hwrong⟩
          obtain rfl := Except.ok.inj heq
          exact hwrong

/-- Eight of ten are taken and a request for five waits: the shadow controller says that a request
for one would be admitted, and its twin queues it. -/
theorem jumpsQueue_mispredicted :
    ¬ ∀ s : AdmissionController ℚ, s.Reachable → s.config.mode = .shadow →
      s.adaptation.pressure = .normal → ∀ request : AdmissionRequest ℚ,
      request.pressure = none ∨ request.pressure = some .normal →
      Predicts (s.acquire request).2 (s.enforceTwin.acquire request).2 := by
  intro hall
  obtain ⟨s, hrun, hmode, hnormal, hshadow, htwin⟩ : ∃ s : AdmissionController ℚ,
      Trace.exec step (new (smallConfig .shadow false) 0)
        [.acquire { cost := some 8 }, .acquire { cost := some 5 }] = some s ∧
      s.config.mode = .shadow ∧ s.adaptation.pressure = .normal ∧
      (s.acquire { cost := some 1 }).2 = .ok (.admitted 3 (some .wouldAdmit)) ∧
      (s.enforceTwin.acquire { cost := some 1 }).2 = .ok (.queued 3) := by
    refine ⟨_, rfl, ?_, ?_, ?_, ?_⟩ <;> with_unfolding_all decide +kernel
  have hwrong := hall s ⟨_, _, _, hrun⟩ hmode hnormal { cost := some 1 } (Or.inl rfl)
  rw [hshadow, htwin] at hwrong
  exact hwrong

/-- With eight of ten taken and nothing waiting, a request for two would be admitted and is. -/
theorem predicts_iff_fits :
    ∃ s : AdmissionController ℚ, s.Reachable ∧
      (Predicts (s.acquire { cost := some 2 }).2 (s.enforceTwin.acquire { cost := some 2 }).2 ↔
        ¬ s.Mispredicted { cost := some 2 }) := by
  obtain ⟨s, hrun, hmode, hnormal⟩ : ∃ s : AdmissionController ℚ,
      Trace.exec step (new (smallConfig .shadow false) 0)
        [.acquire { cost := some 8 }] = some s ∧
      s.config.mode = .shadow ∧ s.adaptation.pressure = .normal := by
    refine ⟨_, rfl, ?_, ?_⟩ <;> decide +kernel
  exact ⟨s, ⟨_, _, _, hrun⟩, predicts_iff hmode hnormal (Or.inl rfl)⟩

end AdmissionController
end OmniRoute
