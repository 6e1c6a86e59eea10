import OmniRoute.Admission.Passes

/-!
# The admission budget

The controller keeps the cost of the active leases, and next to it the cost and the number of
those that `enforce` would have admitted, with a queue of those it would have queued.

**Main result (`budget`).** In every state of every run the limit is within its bounds and the
three ledgers agree with the active leases. While the controller stays in mode `enforce` under one
configuration, the active cost is at most `maxLimit`, and an admission leaves it at most the
limit unless it is a solo admission.

The ledgers are tallies of the map of active leases. A lease is added, changes its disposition or
goes (`VirtualLedger.add`, `VirtualLedger.change`, `VirtualLedger.drop`), and every operation is
made of these.
-/

namespace OmniRoute.AdmissionController

open FairCostQueue List OrdMap Keeps

variable {F : Type} [JsNumber F]

/-! ## The ledgers -/

def leaseCost (p : ℕ × ActiveLeaseRecord) : ℤ := p.2.cost

/-- What a lease adds to the virtual active cost. -/
def virtualCost (p : ℕ × ActiveLeaseRecord) : ℤ :=
  if p.2.virtualDisposition = .active then p.2.cost else 0

/-- What a lease adds to the virtual active count. -/
def virtualCount (p : ℕ × ActiveLeaseRecord) : ℤ :=
  if p.2.virtualDisposition = .active then 1 else 0

/-- The id, the record and the cost of a virtual entry. -/
def ticket (e : QueueEntry VirtualPayload) : ℕ × ℕ × ℤ := (e.id, e.payload.recordId, e.cost)

/-- The virtual entry of a lease that would wait. -/
def virtualTicket (p : ℕ × ActiveLeaseRecord) : Multiset (ℕ × ℕ × ℤ) :=
  if p.2.virtualDisposition = .queued then {(p.1, p.1, p.2.cost)} else 0

/-- The virtual ledger agrees with the active leases. -/
structure VirtualLedger (active : OrdMap ℕ ActiveLeaseRecord) (cost count : ℤ)
    (queue : FairCostQueue VirtualPayload) : Prop where
  cost_eq : cost = active.tally virtualCost
  count_eq : count = active.tally virtualCount
  cost_le : cost ≤ maxAdmissionCostOrLimit
  sound : queue.Sound
  queued : queue.items.map ticket = active.tally virtualTicket

/-- The leases are named by ids that have been minted, and cost something. -/
def LeasesOk (active : OrdMap ℕ ActiveLeaseRecord) (seq : ℕ) : Prop :=
  ∀ p ∈ active.entries, p.1 ≤ seq ∧ 0 < p.2.cost

structure Ledger (s : AdmissionController F) : Prop where
  minLimit_le : s.config.minLimit ≤ s.adaptation.currentLimit
  le_maxLimit : s.adaptation.currentLimit ≤ s.config.maxLimit
  leases : LeasesOk s.active s.leaseSeq
  cost : s.activeCost = s.active.tally leaseCost
  ledger : VirtualLedger s.active s.virtualActiveCost s.virtualActiveCount s.virtualQueue

theorem maxAdmissionCostOrLimit_lt : maxAdmissionCostOrLimit < maxSafeInteger - 1 := by decide

theorem addSaturated_eq {total delta : ℤ} (hpos : 0 < delta)
    (hsafe : total + delta < maxSafeInteger) : addSaturated total delta = total + delta := by
  unfold addSaturated
  rw [if_neg (by omega), if_neg (by omega)]

variable {active : OrdMap ℕ ActiveLeaseRecord}

theorem mem_tickets {x : ℕ × ℕ × ℤ} (h : x ∈ active.tally virtualTicket) :
    ∃ record, active.get x.1 = some record ∧
      record.virtualDisposition = .queued ∧ x = (x.1, x.1, record.cost) := by
  have hsum : ∀ l : List (ℕ × ActiveLeaseRecord), x ∈ (l.map virtualTicket).sum →
      ∃ p ∈ l, x ∈ virtualTicket p := by
    intro l
    induction l with
    | nil => exact fun hx => absurd hx (Multiset.notMem_zero x)
    | cons p l ih =>
      intro hx
      rw [map_cons, sum_cons, Multiset.mem_add] at hx
      rcases hx with hx | hx
      · exact ⟨p, mem_cons_self, hx⟩
      · obtain ⟨p', hp', hx'⟩ := ih hx
        exact ⟨p', mem_cons_of_mem _ hp', hx'⟩
  obtain ⟨p, hp, hx⟩ := hsum active.entries h
  unfold virtualTicket at hx
  split at hx
  · next hqueued =>
    obtain rfl := Multiset.mem_singleton.1 hx
    exact ⟨p.2, get_eq_some.2 hp, hqueued, rfl⟩
  · exact absurd hx (Multiset.notMem_zero x)

theorem LeasesOk.fresh {seq : ℕ} (h : LeasesOk active seq) : active.get (seq + 1) = none := by
  rw [get_eq_none]
  intro hmem
  obtain ⟨p, hp, heq⟩ := mem_map.1 hmem
  have hle := (h p hp).1
  omega

variable {record : ActiveLeaseRecord}

theorem LeasesOk.set {seq seq' id : ℕ} (h : LeasesOk active seq) (hid : id ≤ seq')
    (hseq : seq ≤ seq') (hpos : 0 < record.cost) : LeasesOk (active.set id record) seq' := by
  intro p hp
  rcases mem_set hp with rfl | hp
  · exact ⟨hid, hpos⟩
  · exact ⟨(h p hp).1.trans hseq, (h p hp).2⟩

/-! ## Leases come, change and go -/

/-- The number of the leases that count is at most their cost. -/
theorem virtualCount_le {seq : ℕ} (h : LeasesOk active seq) :
    active.tally virtualCount ≤ active.tally virtualCost := by
  apply sum_le_sum
  intro p hp
  have hpos := (h p hp).2
  unfold virtualCount virtualCost
  split
  · exact hpos
  · exact le_rfl

section

variable {active : OrdMap ℕ ActiveLeaseRecord} {cost count cost' count' : ℤ}
  {queue queue' : FairCostQueue VirtualPayload} {id : ℕ} {record record' : ActiveLeaseRecord}

section

variable (h : VirtualLedger active cost count queue)
include h

theorem VirtualLedger.add
    (hnew : active.get id = none) (hcost : cost' = cost + virtualCost (id, record))
    (hcount : count' = count + virtualCount (id, record)) (hle : cost' ≤ maxAdmissionCostOrLimit)
    (hsound : queue'.Sound)
    (hqueue : queue'.items.map ticket = virtualTicket (id, record) + queue.items.map ticket) :
    VirtualLedger (active.set id record) cost' count' queue' where
  cost_eq := by rw [tally_set_none hnew, hcost, h.cost_eq, add_comm]
  count_eq := by rw [tally_set_none hnew, hcount, h.count_eq, add_comm]
  cost_le := hle
  sound := hsound
  queued := by rw [tally_set_none hnew, hqueue, h.queued]

theorem VirtualLedger.change
    (hget : active.get id = some record)
    (hcost : cost' + virtualCost (id, record) = cost + virtualCost (id, record'))
    (hcount : count' + virtualCount (id, record) = count + virtualCount (id, record'))
    (hle : cost' ≤ maxAdmissionCostOrLimit) (hsound : queue'.Sound)
    (hqueue : virtualTicket (id, record) + queue'.items.map ticket =
      virtualTicket (id, record') + queue.items.map ticket) :
    VirtualLedger (active.set id record') cost' count' queue' where
  cost_eq := by
    have hold := h.cost_eq
    rw [tally_get hget] at hold
    rw [tally_set]
    omega
  count_eq := by
    have hold := h.count_eq
    rw [tally_get hget] at hold
    rw [tally_set]
    omega
  cost_le := hle
  sound := hsound
  queued := by
    rw [h.queued, tally_get hget, add_left_comm] at hqueue
    rw [tally_set]
    exact add_left_cancel hqueue

theorem VirtualLedger.drop
    (hget : active.get id = some record) (hcost : cost' + virtualCost (id, record) = cost)
    (hcount : count' + virtualCount (id, record) = count) (hle : cost' ≤ cost)
    (hsound : queue'.Sound)
    (hqueue : virtualTicket (id, record) + queue'.items.map ticket = queue.items.map ticket) :
    VirtualLedger (active.delete id) cost' count' queue' where
  cost_eq := by
    have hold := h.cost_eq
    rw [tally_get hget] at hold
    omega
  count_eq := by
    have hold := h.count_eq
    rw [tally_get hget] at hold
    omega
  cost_le := hle.trans h.cost_le
  sound := hsound
  queued := by
    rw [h.queued, tally_get hget] at hqueue
    exact add_left_cancel hqueue

end

end

theorem leaseCost_change {id : ℕ} (hget : active.get id = some record)
    (virtualDisposition : VirtualDisposition) :
    (active.set id { record with virtualDisposition }).tally leaseCost =
      active.tally leaseCost := by
  rw [tally_set, tally_get hget]
  rfl

theorem ticket_bare (e : QueueEntry VirtualPayload) : ticket e.bare = ticket e := rfl

/-! ## Dispatching -/

variable {s t : AdmissionController F}

/-- What the ledgers are about, but for the limit and the ids. -/
def ledgers (s : AdmissionController F) : ValidatedConfig F × OrdMap ℕ ActiveLeaseRecord × ℤ × ℤ × ℤ ×
    FairCostQueue VirtualPayload :=
  (s.config, s.active, s.activeCost, s.virtualActiveCost, s.virtualActiveCount, s.virtualQueue)

theorem Ledger.frame (h : Ledger s)
    (hlimit : t.adaptation.currentLimit = s.adaptation.currentLimit) (hledgers : t.ledgers = s.ledgers)
    (hseq : s.leaseSeq ≤ t.leaseSeq) : Ledger t := by
  simp only [ledgers, Prod.mk.injEq] at hledgers
  obtain ⟨hconfig, hactive, hcost, hvirtual, hcount, hqueue⟩ := hledgers
  refine ⟨?_, ?_, ?_, ?_, ?_⟩
  · rw [hconfig, hlimit]
    exact h.minLimit_le
  · rw [hconfig, hlimit]
    exact h.le_maxLimit
  · intro p hp
    rw [hactive] at hp
    exact ⟨(h.leases p hp).1.trans hseq, (h.leases p hp).2⟩
  · rw [hactive, hcost]
    exact h.cost
  · rw [hactive, hvirtual, hcount, hqueue]
    exact h.ledger

/-- The limit moves within its bounds. -/
theorem Ledger.limit (h : Ledger s) {adaptation : AdaptationState F}
    (hmin : s.config.minLimit ≤ adaptation.currentLimit)
    (hmax : adaptation.currentLimit ≤ s.config.maxLimit) : Ledger { s with adaptation } :=
  ⟨hmin, hmax, h.leases, h.cost, h.ledger⟩

theorem Ledger.sampleIntegral (h : Ledger s) : Ledger s.sampleIntegral := by
  obtain ⟨integral, time, heq⟩ := s.sampleIntegral_eq
  rw [heq]
  exact h.frame rfl rfl le_rfl

theorem Ledger.evictsOnly (h : Ledger s) (ht : EvictsOnly s t) : Ledger t := by
  rw [ht]
  exact h.frame rfl rfl le_rfl

theorem Ledger.failQueued (h : Ledger s) (entry : QueueEntry QueuedPayload)
    (code : AdmissionRejectCode) (message : String) : Ledger (s.failQueued entry code message) :=
  h.evictsOnly (failAll_evictsOnly code message [entry] s)

variable {cost : ℤ}

/-- A lease of which the virtual ledger takes no notice is added. -/
theorem Ledger.admits (h : Ledger s) {now : ℤ} (hpos : 0 < cost) (disposition : VirtualDisposition)
    (hactive : disposition ≠ .active) (hqueued : disposition ≠ .queued)
    (hconfig : t.config = s.config) (hlimit : t.adaptation.currentLimit = s.adaptation.currentLimit)
    (hset : t.active = s.active.set (s.leaseSeq + 1) ⟨cost, now, disposition⟩)
    (hcost : t.activeCost = s.activeCost + cost)
    (hvirtual : t.virtualActiveCost = s.virtualActiveCost)
    (hcount : t.virtualActiveCount = s.virtualActiveCount)
    (hqueue : t.virtualQueue = s.virtualQueue) (hseq : t.leaseSeq = s.leaseSeq + 1) : Ledger t := by
  have hnew := h.leases.fresh
  refine ⟨?_, ?_, ?_, ?_, ?_⟩
  · rw [hconfig, hlimit]
    exact h.minLimit_le
  · rw [hconfig, hlimit]
    exact h.le_maxLimit
  · rw [hset, hseq]
    exact h.leases.set le_rfl (Nat.le_succ _) hpos
  · rw [hset, hcost, tally_set_none hnew, h.cost, add_comm]
    rfl
  · rw [hset]
    refine h.ledger.add hnew ?_ ?_ (hvirtual ▸ h.ledger.cost_le) (hqueue ▸ h.ledger.sound) ?_
    · rw [hvirtual, virtualCost, if_neg hactive, add_zero]
    · rw [hcount, virtualCount, if_neg hactive, add_zero]
    · rw [hqueue, virtualTicket, if_neg hqueued, zero_add]

theorem Ledger.admitEntry (h : Ledger s) (hpos : 0 < cost) (disposition : VirtualDisposition)
    (hactive : disposition ≠ .active) (hqueued : disposition ≠ .queued) :
    Ledger (s.admitEntry cost disposition).1 := by
  obtain ⟨integral, time, heq⟩ := s.admitEntry_eq cost disposition
  rw [heq]
  exact h.admits hpos disposition hactive hqueued rfl rfl rfl rfl rfl rfl rfl rfl

variable {entry : QueueEntry QueuedPayload}

section

variable (h : Ledger s)
include h

theorem Ledger.admitQueued (hpos : 0 < entry.cost) : Ledger (s.admitQueued entry) := by
  obtain ⟨integral, time, heq⟩ := s.admitQueued_eq entry
  rw [heq]
  exact h.admits hpos .none nofun nofun rfl rfl rfl rfl rfl rfl rfl rfl

theorem Ledger.queuesOnly (ht : QueuesOnly s t) : Ledger t := by
  obtain ⟨hseq, ht⟩ := ht
  refine h.frame ?_ ?_ hseq
  · rw [ht]
  · rw [ht]
    rfl

theorem Ledger.passes {p : Prop} (hp : p) (ht : Passes p s t) : Ledger t := by
  induction ht with
  | refl => exact h
  | tail _ hstep ih =>
    cases hstep with
    | queues hu => exact ih.queuesOnly hu
    | admits hpos _ => exact ih.admitEntry (hpos hp) .none nofun nofun

theorem Ledger.dispatch (hs : s.QueuesSound) : Ledger s.dispatch :=
  h.passes hs (Passes.dispatch .refl id)

/-! ## The virtual dispatch -/

/-- The cost of a lease that starts to count is small. -/
theorem Ledger.saturate (hpos : 0 < cost)
    (hfits : cost ≤ s.adaptation.currentLimit - s.virtualActiveCost) :
    addSaturated s.virtualActiveCost cost = s.virtualActiveCost + cost ∧
      addSaturated s.virtualActiveCount 1 = s.virtualActiveCount + 1 ∧
      s.virtualActiveCost + cost ≤ maxAdmissionCostOrLimit := by
  have hmax := s.config.maxLimit_le
  have hlimit := h.le_maxLimit
  have hbound := maxAdmissionCostOrLimit_lt
  have hcount : s.virtualActiveCount ≤ s.virtualActiveCost := by
    rw [h.ledger.count_eq, h.ledger.cost_eq]
    exact virtualCount_le h.leases
  refine ⟨addSaturated_eq hpos ?_, addSaturated_eq Int.one_pos ?_, ?_⟩
  · omega
  · omega
  · omega

/-- The lease of a virtual entry. -/
theorem Ledger.lease_of_mem {e : QueueEntry VirtualPayload} (he : e ∈ s.virtualQueue.items) :
    ∃ record, s.active.get e.id = some record ∧ record.virtualDisposition = .queued ∧
      ticket e = (e.id, e.id, record.cost) := by
  have hmem : ticket e ∈ s.active.tally virtualTicket := by
    rw [← h.ledger.queued]
    exact Multiset.mem_map_of_mem ticket he
  exact mem_tickets hmem

theorem Ledger.dispatchVirtualLoop (n : ℕ) : Ledger (dispatchVirtualLoop n s) := by
  induction n generalizing s with
  | zero => exact h
  | succ n ih =>
    rw [dispatchVirtualLoop]
    split
    · exact h
    dsimp only
    split
    · exact h
    cases hdeq : s.virtualQueue.dequeue (s.adaptation.currentLimit - s.virtualActiveCost) with
    | none => exact h
    | some r =>
      obtain ⟨entry, q⟩ := r
      obtain ⟨hitems, hfits⟩ := items_dequeue hdeq
      have hmem : entry ∈ s.virtualQueue.items := by
        rw [hitems]
        exact Multiset.mem_cons_self _ _
      obtain ⟨record, hget, hqueued, hticket⟩ := h.lease_of_mem hmem
      obtain ⟨hid, hcost⟩ : entry.payload.recordId = entry.id ∧ entry.cost = record.cost := by
        simpa [ticket] using hticket
      have hpos : 0 < record.cost := (h.leases _ (get_eq_some.1 hget)).2
      obtain ⟨hvirtual, hcount, hle⟩ := h.saturate hpos (hcost ▸ hfits)
      dsimp only
      rw [hid, hget]
      dsimp only
      apply ih
      refine ⟨h.minLimit_le, h.le_maxLimit, ?_, ?_, ?_⟩
      · exact h.leases.set (h.leases _ (get_eq_some.1 hget)).1 le_rfl hpos
      · rw [leaseCost_change hget]
        exact h.cost
      · refine h.ledger.change hget ?_ ?_ ?_ (h.ledger.sound.dequeue hdeq) ?_
        · rw [hvirtual]
          simp [virtualCost, hqueued]
        · rw [hcount]
          simp [virtualCount, hqueued]
        · rw [hvirtual]
          exact hle
        · rw [hitems, Multiset.map_cons, hticket]
          simp [virtualTicket, hqueued]

theorem Ledger.dispatchVirtual : Ledger s.dispatchVirtual :=
  h.dispatchVirtualLoop s.virtualQueue.count

/-! ## The operations -/

theorem Ledger.releaseVirtual {id : ℕ} (hget : s.active.get id = some record)
    (hconfig : t.config = s.config) (hlimit : t.adaptation.currentLimit = s.adaptation.currentLimit)
    (hactive : t.active = s.active.delete id) (hcost : t.activeCost = s.activeCost - record.cost)
    (hvirtual : t.virtualActiveCost = s.virtualActiveCost)
    (hcount : t.virtualActiveCount = s.virtualActiveCount)
    (hqueue : t.virtualQueue = s.virtualQueue) (hseq : t.leaseSeq = s.leaseSeq) :
    Ledger (t.releaseVirtual id record) := by
  have hleases : LeasesOk t.active t.leaseSeq := by
    rw [hactive, hseq]
    intro p hp
    exact h.leases p (mem_of_mem_delete hp)
  have htally : t.activeCost = t.active.tally leaseCost := by
    have hold := h.cost
    rw [tally_get hget] at hold
    rw [hactive, hcost, hold]
    exact add_sub_cancel_left _ _
  have hmin : t.config.minLimit ≤ t.adaptation.currentLimit := by
    rw [hconfig, hlimit]
    exact h.minLimit_le
  have hmax : t.adaptation.currentLimit ≤ t.config.maxLimit := by
    rw [hconfig, hlimit]
    exact h.le_maxLimit
  have hpos : 0 < record.cost := (h.leases _ (get_eq_some.1 hget)).2
  unfold AdmissionController.releaseVirtual
  dsimp only
  apply Ledger.dispatchVirtual
  cases hdisp : record.virtualDisposition with
  | active =>
    refine ⟨hmin, hmax, hleases, htally, ?_⟩
    rw [hactive]
    refine h.ledger.drop hget ?_ ?_ ?_ (hqueue ▸ h.ledger.sound) ?_
    · simp [hvirtual, virtualCost, hdisp]
    · simp [hcount, virtualCount, hdisp]
    · rw [hvirtual]
      show s.virtualActiveCost - record.cost ≤ s.virtualActiveCost
      omega
    · simp [hqueue, virtualTicket, hdisp]
  | queued =>
    have hmem : (id, id, record.cost) ∈ s.virtualQueue.items.map ticket := by
      rw [h.ledger.queued, tally_get hget, virtualTicket, if_pos hdisp]
      exact Multiset.mem_add.2 (Or.inl (Multiset.mem_singleton_self _))
    obtain ⟨e, he, heq⟩ := Multiset.mem_map.1 hmem
    dsimp only
    rw [hqueue]
    cases hrem : s.virtualQueue.removeById id with
    | none => exact absurd (congrArg Prod.fst heq) (removeById_none h.ledger.sound.cursor hrem e he)
    | some r =>
      obtain ⟨entry, q⟩ := r
      obtain ⟨hitems, hid⟩ := items_removeById h.ledger.sound.cursor hrem
      have hentry : entry.bare ∈ s.virtualQueue.items := by
        rw [hitems]
        exact Multiset.mem_cons_self _ _
      obtain ⟨record', hget', -, hticket⟩ := h.lease_of_mem hentry
      have hsame : record' = record := by
        rw [show entry.bare.id = id from hid, hget] at hget'
        exact (Option.some.inj hget').symm
      refine ⟨hmin, hmax, hleases, htally, ?_⟩
      dsimp only
      rw [hactive]
      refine h.ledger.drop hget ?_ ?_ hvirtual.le (h.ledger.sound.removeById hrem) ?_
      · simp [hvirtual, virtualCost, hdisp]
      · simp [hcount, virtualCount, hdisp]
      · rw [hitems, Multiset.map_cons, hticket, hsame, show entry.bare.id = id from hid]
        simp [virtualTicket, hdisp]
  | _ =>
    refine ⟨hmin, hmax, hleases, htally, ?_⟩
    rw [hactive]
    refine h.ledger.drop hget ?_ ?_ hvirtual.le (hqueue ▸ h.ledger.sound) ?_
    · simp [hvirtual, virtualCost, hdisp]
    · simp [hcount, virtualCount, hdisp]
    · simp [hqueue, virtualTicket, hdisp]

omit h in
theorem QueuesSound.released (hs : s.QueuesSound) (id : ℕ) (outcome : AdmissionReleaseOutcome)
    (info : AdmissionReleaseMeta F) : (s.released id record outcome info).QueuesSound := by
  unfold AdmissionController.released
  dsimp only
  rw [releaseVirtual_virtualOnly]
  exact ((refl hs).sampleIntegral).sound

omit h in
/-- The limit before the dispatch of a release. -/
theorem released_limit (s : AdmissionController F) (id : ℕ) (outcome : AdmissionReleaseOutcome)
    (info : AdmissionReleaseMeta F) :
    (s.released id record outcome info).adaptation.currentLimit = s.adaptation.currentLimit := by
  obtain ⟨integral, time, heq⟩ := s.sampleIntegral_eq
  unfold released
  dsimp only
  rw [releaseVirtual_virtualOnly, heq]
  cases info.pressure with
  | _ => simp

theorem Ledger.released {id : ℕ} (hget : s.active.get id = some record)
    (outcome : AdmissionReleaseOutcome) (info : AdmissionReleaseMeta F) :
    Ledger (s.released id record outcome info) := by
  obtain ⟨integral, time, heq⟩ := s.sampleIntegral_eq
  unfold AdmissionController.released
  dsimp only
  refine h.releaseVirtual hget ?_ ?_ ?_ ?_ ?_ ?_ ?_ ?_
  all_goals rw [heq]
  cases info.pressure with
  | _ => simp

theorem Ledger.releaseLease (hs : s.QueuesSound) (id : ℕ)
    (outcome : AdmissionReleaseOutcome) (info : AdmissionReleaseMeta F) :
    Ledger (s.releaseLease id outcome info) := by
  rw [releaseLease_eq]
  cases hget : s.active.get id with
  | none => exact h
  | some record => exact (h.released hget outcome info).dispatch (hs.released id outcome info)

theorem Ledger.acquireShadow (request : AdmissionRequest F) (hpos : 0 < cost) :
    Ledger (s.acquireShadow request cost s.adaptation.currentLimit).1 := by
  have hnew := h.leases.fresh
  unfold AdmissionController.acquireShadow
  cases hdec : s.shadowDecision cost s.adaptation.currentLimit with
  | wouldReject =>
    have hcounted : Ledger { s with wouldRejectCount := s.wouldRejectCount + 1 } :=
      h.frame rfl rfl le_rfl
    exact hcounted.admitEntry hpos .rejected nofun nofun
  | wouldAdmit =>
    have hfits : s.virtualActiveCost + cost ≤ s.adaptation.currentLimit := by
      unfold shadowDecision at hdec
      split at hdec
      · cases hdec
      split at hdec
      · assumption
      split at hdec
      · cases hdec
      · cases hdec
    obtain ⟨hvirtual, hcount, hle⟩ := h.saturate hpos (by omega)
    dsimp only
    rw [hvirtual, hcount]
    obtain ⟨integral, time, heq⟩ := admitEntry_eq { s with
      virtualActiveCost := s.virtualActiveCost + cost
      virtualActiveCount := s.virtualActiveCount + 1
      wouldAdmitCount := addSaturated s.wouldAdmitCount 1 } cost .active
    rw [heq]
    refine ⟨h.minLimit_le, h.le_maxLimit, h.leases.set le_rfl (Nat.le_succ _) hpos, ?_, ?_⟩
    · dsimp only
      rw [tally_set_none hnew, h.cost, add_comm]
      rfl
    · refine h.ledger.add hnew rfl rfl hle h.ledger.sound ?_
      simp [virtualTicket]
  | wouldQueue =>
    have hacc : s.virtualQueue.canAccept cost = true := by
      unfold shadowDecision at hdec
      split at hdec
      · cases hdec
      split at hdec
      · cases hdec
      split at hdec
      · assumption
      · cases hdec
    obtain ⟨integral, time, heq⟩ := admitEntry_eq
      { s with wouldQueueCount := s.wouldQueueCount + 1 } cost .queued
    dsimp only
    rw [heq]
    dsimp only
    generalize hentry : (⟨s.leaseSeq + 1, tenant request, cost, s.now, maxSafeInteger,
      ⟨s.leaseSeq + 1⟩, 0⟩ : QueueEntry VirtualPayload) = entry
    have hticket : ticket entry = (s.leaseSeq + 1, s.leaseSeq + 1, cost) := by rw [← hentry]; rfl
    cases henq : s.virtualQueue.enqueue entry with
    | none =>
      rw [FairCostQueue.enqueue, ← hentry, if_pos hacc] at henq
      cases henq
    | some q =>
      refine ⟨h.minLimit_le, h.le_maxLimit, h.leases.set le_rfl (Nat.le_succ _) hpos, ?_, ?_⟩
      · dsimp only
        rw [tally_set_none hnew, h.cost, add_comm]
        rfl
      · refine h.ledger.add hnew ?_ ?_ h.ledger.cost_le (h.ledger.sound.enqueue henq) ?_
        · simp [virtualCost]
        · simp [virtualCount]
        · rw [items_enqueue henq, Multiset.map_cons, ticket_bare, hticket]
          simp [virtualTicket]

theorem Ledger.reject (code : AdmissionRejectCode) (message : String) :
    Ledger (s.reject code message).1 :=
  h.frame rfl rfl le_rfl

section

variable (hs : s.QueuesSound)
include hs

theorem Ledger.acquire (request : AdmissionRequest F) : Ledger (s.acquire request).1 := by
  rw [acquire_eq]
  split
  · exact h.reject _ _
  split
  · exact h.reject _ _
  obtain ⟨adaptation, hlimit, heq⟩ := s.notePressure_eq request
  have hnoted : Ledger { s with adaptation } := h.frame hlimit rfl le_rfl
  rw [heq]
  unfold acquireMode
  cases hcost : resolveCost { s with adaptation } request with
  | error message => exact hnoted
  | ok cost =>
    have hpos := (resolveCost_mem hcost).1
    dsimp only
    split
    · exact hnoted.frame rfl rfl (Nat.le_succ _)
    · exact hnoted.acquireShadow request hpos
    · exact hnoted.passes hs
        (Passes.acquireEnforce (t := { s with adaptation }) .refl (fun _ => hs) request hpos)

theorem Ledger.call (request : AdmissionRequest F) : Ledger (s.call request) := by
  have hacquire := h.acquire hs request
  unfold AdmissionController.call
  rcases hcall : s.acquire request with ⟨t, result⟩
  rw [hcall] at hacquire
  cases result with
  | error message => exact hacquire
  | ok result => exact hacquire.frame rfl rfl le_rfl

theorem Ledger.expireEntry (id : ℕ) (code : AdmissionRejectCode)
    (message : String) : Ledger (s.expireEntry id code message) :=
  h.passes trivial (Passes.expireEntry .refl hs id code message)

theorem Ledger.onAbort (signal entry : ℕ) : Ledger (s.onAbort signal entry) :=
  h.passes trivial (Passes.onAbort .refl hs signal entry)

omit hs in
theorem Ledger.limitCut [LawfulJsNumber F] (pressure : AdmissionPressure) :
    Ledger (s.limitCut pressure) ∧
      (s.limitCut pressure).adaptation.currentLimit ≤ s.adaptation.currentLimit := by
  have hset : Ledger { s with adaptation := setPressure s.adaptation pressure } :=
    h.frame (setPressure_currentLimit _ _) rfl le_rfl
  have hpos := s.config.minLimit_pos
  have hmax := s.config.maxLimit_le
  have hbound := maxAdmissionCostOrLimit_lt
  have hmin' := hset.minLimit_le
  have hmax' := hset.le_maxLimit
  dsimp only at hmin' hmax'
  obtain ⟨hlow, hhigh⟩ := cutLimit_mem hmin' hmax' (by omega) (by omega)
    s.config.adaptation.criticalDecreaseFactor
  exact ⟨hset.limit hlow (hhigh.trans hmax'), hhigh.trans_eq (setPressure_currentLimit _ _)⟩

theorem Ledger.observePressure [LawfulJsNumber F]
    (pressure : AdmissionPressure) : Ledger (s.observePressure pressure) := by
  rw [observePressure_eq]
  split
  · exact ((h.limitCut pressure).1.dispatch hs).dispatchVirtual
  · exact h.frame (setPressure_currentLimit _ _) rfl le_rfl

omit h in
theorem QueuesSound.windowClosed : s.windowClosed.QueuesSound :=
  (refl hs).sampleIntegral.evictIdleLanes.sound

end

omit h in
theorem windowClosed_config (s : AdmissionController F) : s.windowClosed.config = s.config := by
  obtain ⟨integral, time, heq⟩ := s.sampleIntegral_eq
  unfold windowClosed
  rw [evictIdleLanes_evictsOnly s.sampleIntegral, heq]

theorem Ledger.windowClosed : Ledger s.windowClosed := by
  have hsample := h.sampleIntegral.evictsOnly (evictIdleLanes_evictsOnly _)
  unfold AdmissionController.windowClosed
  generalize s.sampleIntegral.evictIdleLanes = u at hsample
  have hparams : u.config.adaptation.minLimit ≤ u.config.adaptation.maxLimit := by
    rw [u.config.adaptation_minLimit, u.config.adaptation_maxLimit]
    exact u.config.minLimit_le
  have hlimit := closeAdaptationWindow_limit u.adaptation hparams u.now
  rw [u.config.adaptation_minLimit, u.config.adaptation_maxLimit] at hlimit
  exact hsample.limit hlimit.1 hlimit.2

theorem Ledger.tick (hs : s.QueuesSound) : Ledger s.tick := by
  rw [tick_eq]
  exact (h.windowClosed.dispatch hs.windowClosed).dispatchVirtual

theorem Ledger.armWindowTimer : Ledger s.armWindowTimer := by
  unfold AdmissionController.armWindowTimer
  split
  · exact h.frame rfl rfl le_rfl
  · exact h.frame rfl rfl le_rfl

theorem Ledger.requeueAll {es : List (QueueEntry QueuedPayload)}
    (hpos : ∀ e ∈ es, 0 < e.cost) : Ledger (es.foldl requeue s) := by
  induction es generalizing s with
  | nil => exact h
  | cons entry es ih =>
    apply ih ?_ fun e he => hpos e (mem_cons_of_mem _ he)
    unfold requeue
    split
    · exact h.admitQueued (hpos entry mem_cons_self)
    split
    · exact h.failQueued _ _ _
    cases s.queue.enqueue entry with
    | none => exact h.failQueued _ _ _
    | some q => exact h.frame rfl rfl le_rfl

/-- A lease without a disposition gets one. -/
theorem Ledger.classify {id : ℕ}
    (hnone : ∀ record, s.active.get id = some record → record.virtualDisposition = .none) :
    Ledger (s.classify id) := by
  unfold AdmissionController.classify
  cases hget : s.active.get id with
  | none => exact h
  | some record =>
    have hdisp := hnone record hget
    have hmem := h.leases _ (get_eq_some.1 hget)
    have hleases : ∀ disposition, LeasesOk
        (s.active.set id { record with virtualDisposition := disposition }) s.leaseSeq :=
      fun _ => h.leases.set hmem.1 le_rfl hmem.2
    have hcost : ∀ virtualDisposition, s.activeCost =
        (s.active.set id { record with virtualDisposition }).tally leaseCost := by
      intro virtualDisposition
      rw [leaseCost_change hget]
      exact h.cost
    have hrejected : Ledger (s.setDisposition id record .rejected) := by
      refine ⟨h.minLimit_le, h.le_maxLimit, hleases _, hcost _, ?_⟩
      refine h.ledger.change hget ?_ ?_ h.ledger.cost_le h.ledger.sound ?_
      · simp [setDisposition, virtualCost, hdisp]
      · simp [setDisposition, virtualCount, hdisp]
      · simp [setDisposition, virtualTicket, hdisp]
    dsimp only
    split
    · exact hrejected
    split
    · next hfits =>
      obtain ⟨hvirtual, hcount, hle⟩ := h.saturate hmem.2 hfits
      rw [hvirtual, hcount]
      refine ⟨h.minLimit_le, h.le_maxLimit, hleases _, hcost _, ?_⟩
      refine h.ledger.change hget ?_ ?_ hle h.ledger.sound ?_
      · simp [virtualCost, hdisp]
      · simp [virtualCount, hdisp]
      · simp [setDisposition, virtualTicket, hdisp]
    · split
      · next q henq =>
        refine ⟨h.minLimit_le, h.le_maxLimit, hleases _, hcost _, ?_⟩
        refine h.ledger.change hget ?_ ?_ h.ledger.cost_le (h.ledger.sound.enqueue henq) ?_
        · simp [setDisposition, virtualCost, hdisp]
        · simp [setDisposition, virtualCount, hdisp]
        · rw [items_enqueue henq, Multiset.map_cons, ticket_bare]
          simp [virtualTicket, hdisp, ticket]
      · exact hrejected

omit h in
theorem classify_get {id id' : ℕ} (hne : id' ≠ id) :
    (s.classify id).active.get id' = s.active.get id' := by
  unfold classify
  split
  · rfl
  split
  · exact get_set_ne _ hne _
  split
  · exact get_set_ne _ hne _
  dsimp only
  split
  · exact get_set_ne _ hne _
  · exact get_set_ne _ hne _

theorem Ledger.classifyAll {ids : List ℕ} (hnd : ids.Nodup)
    (hnone : ∀ id ∈ ids, ∀ record, s.active.get id = some record →
      record.virtualDisposition = .none) : Ledger (ids.foldl AdmissionController.classify s) := by
  induction ids generalizing s with
  | nil => exact h
  | cons id ids ih =>
    obtain ⟨hnot, hnd⟩ := nodup_cons.1 hnd
    apply ih (h.classify (hnone id mem_cons_self)) hnd
    intro id' hid' record hget
    have hne : id' ≠ id := by
      intro heq
      exact hnot (heq ▸ hid')
    rw [classify_get hne] at hget
    exact hnone id' (mem_cons_of_mem _ hid') record hget

theorem Ledger.rebuildVirtualState (enable : Bool) : Ledger (s.rebuildVirtualState enable) := by
  generalize hcleared : (s.active.modifyAll s.active.keys
    fun record => { record with virtualDisposition := .none }) = active
  have hmem : ∀ p ∈ active.entries, ∃ record, (p.1, record) ∈ s.active.entries ∧
      p.2 = { record with virtualDisposition := .none } := by
    rw [← hcleared]
    exact fun p hp => mem_modifyAll_keys hp
  have hstart : Ledger { s with
      virtualQueue := .new s.config.maxQueueCount s.config.maxQueueCost
      virtualActiveCost := 0
      virtualActiveCount := 0
      active } := by
    refine ⟨h.minLimit_le, h.le_maxLimit, ?_, ?_, ?_⟩
    · intro p hp
      obtain ⟨record, hrecord, heq⟩ := hmem p hp
      rw [heq]
      exact h.leases _ hrecord
    · show s.activeCost = active.tally leaseCost
      rw [h.cost, ← hcleared, tally_modifyAll]
      exact fun _ _ => rfl
    · have hzero : (0 : ℤ) ≤ maxAdmissionCostOrLimit := by decide
      refine ⟨?_, ?_, hzero, Sound.new _ _, ?_⟩
      · refine (tally_eq_zero fun p hp => ?_).symm
        obtain ⟨record, -, heq⟩ := hmem p hp
        simp [virtualCost, heq]
      · refine (tally_eq_zero fun p hp => ?_).symm
        obtain ⟨record, -, heq⟩ := hmem p hp
        simp [virtualCount, heq]
      · refine (tally_eq_zero fun p hp => ?_).symm
        obtain ⟨record, -, heq⟩ := hmem p hp
        simp [virtualTicket, heq]
  unfold AdmissionController.rebuildVirtualState
  rw [hcleared]
  dsimp only
  split
  · apply hstart.classifyAll active.nodup
    intro id _ record hget
    obtain ⟨record', -, heq⟩ := hmem _ (get_eq_some.1 hget)
    exact congrArg ActiveLeaseRecord.virtualDisposition heq
  · exact hstart

theorem Ledger.clearedFor (next : ValidatedConfig F) : Ledger (s.clearedFor next) := by
  have hle := next.minLimit_le
  refine ⟨?_, ?_, h.leases, h.cost, h.ledger⟩
  · exact le_min hle (le_max_left _ _)
  · exact min_le_left _ _

omit h in
theorem drainAll_pos (hs : s.QueuesSound) : ∀ e ∈ s.drainAll, 0 < e.cost := by
  have hdrain : ∀ q : FairCostQueue QueuedPayload, q.Sound → ∀ e ∈ q.drain.1, 0 < e.cost := by
    intro q hq e he
    apply (hq.costs e ?_).1
    rw [← hq.drain.1]
    exact he
  intro e he
  rcases mem_append.1 he with he | he
  · exact hdrain _ hs.1 e he
  · obtain ⟨lane, hlane, he⟩ := mem_flatMap.1 he
    obtain ⟨p, hp, rfl⟩ := mem_map.1 hlane
    exact hdrain _ (hs.2 p hp) e he

theorem Ledger.rearmed (hs : s.QueuesSound) (next : ValidatedConfig F) :
    Ledger (s.sampleIntegral.reseat next).rearm := by
  have hreseat : Ledger (s.sampleIntegral.reseat next) :=
    (h.sampleIntegral.clearedFor next).requeueAll (drainAll_pos (refl hs).sampleIntegral.sound)
  exact (hreseat.rebuildVirtualState _).armWindowTimer

theorem Ledger.reconfigure (hs : s.QueuesSound) (next : ValidatedConfig F) :
    Ledger (s.reconfigure next) := by
  rw [reconfigure_eq]
  split
  · exact (h.rearmed hs next).dispatch ((refl hs).sampleIntegral.reseat next).rearm.sound
  · exact h.rearmed hs next

end

theorem Ledger.new (config : ValidatedConfig F) (now : ℤ) : Ledger (new config now) := by
  have hlimit := clampLimit_mem config.minLimit_le config.initialLimit
  unfold AdmissionController.new
  apply Ledger.armWindowTimer
  refine ⟨hlimit.1, hlimit.2, nofun, rfl, rfl, rfl, ?_, Sound.new _ _, rfl⟩
  show (0 : ℤ) ≤ maxAdmissionCostOrLimit
  decide

theorem Ledger.step [LawfulJsNumber F] {e : AdmissionEvent F} (hs : s.QueuesSound) (h : Ledger s)
    (hstep : s.step e = some t) : Ledger t := by
  cases e with
  | clock now =>
    cases hstep
    exact h.frame rfl rfl le_rfl
  | acquire request =>
    cases hstep
    exact h.call hs request
  | release lease outcome info =>
    cases hstep
    exact h.releaseLease hs lease outcome info
  | observePressure pressure =>
    cases hstep
    exact h.observePressure hs pressure
  | tick =>
    cases hstep
    exact h.tick hs
  | snapshot =>
    cases hstep
    exact h.sampleIntegral
  | updateConfig config =>
    cases hstep
    unfold updateConfig
    cases validateConfig config with
    | error message => exact h
    | ok next => exact h.reconfigure hs next
  | shutdown =>
    cases hstep
    exact h.passes trivial (Passes.shutdown .refl)
  | abort signal =>
    cases hstep
    exact h.passes trivial (Passes.abort .refl hs signal)
  | deadline entry =>
    obtain ⟨-, -, -, rfl⟩ := step_deadline hstep
    refine Ledger.expireEntry ?_ ?_ _ _ _
    · exact h.frame rfl rfl le_rfl
    · exact hs
  | windowTimer =>
    obtain rfl := step_windowTimer hstep
    exact (h.tick hs).armWindowTimer
  | laneTimer =>
    obtain rfl := step_laneTimer hstep
    exact h.evictsOnly (evictIdleLanes_evictsOnly _)

theorem Reachable.ledger [LawfulJsNumber F] (h : s.Reachable) : Ledger s := by
  obtain ⟨config, now, es, hrun⟩ := h
  have hboth := Trace.exec_invariant (I := fun s => Books 0 s ∧ Ledger s)
    (fun s e t ⟨hs, hl⟩ hstep => ⟨hs.step hstep, hl.step hs.sound hstep⟩)
    ⟨Books.new config now, Ledger.new config now⟩ hrun
  exact hboth.2

/-! ## The active cost in mode `enforce` -/

/-- The admission left the active cost within the limit, or it was a solo admission: the cost was
above the limit and nothing else was active. -/
def Within (maxLimit : ℤ) (a : Admission) : Prop :=
  a.activeCost ≤ a.limit ∨ a.limit < a.cost ∧ a.activeCost = a.cost ∧ a.cost ≤ maxLimit

structure Capped (maxLimit : ℤ) (s : AdmissionController F) : Prop where
  limit : s.adaptation.currentLimit ≤ maxLimit
  cost : s.activeCost ≤ maxLimit
  admissions : ∀ a ∈ s.admissions, Within maxLimit a

variable {maxLimit : ℤ}

section

variable (h : Capped maxLimit s)
include h

theorem Capped.frame (hlimit : t.adaptation.currentLimit ≤ maxLimit)
    (hcost : t.activeCost ≤ s.activeCost) (hadmissions : t.admissions = s.admissions) :
    Capped maxLimit t :=
  ⟨hlimit, hcost.trans h.cost, hadmissions ▸ h.admissions⟩

/-- An admission within the limit. -/
theorem Capped.admits (hfits : s.activeCost + cost ≤ s.adaptation.currentLimit)
    (hlimit : t.adaptation.currentLimit = s.adaptation.currentLimit)
    (hcost : t.activeCost = s.activeCost + cost) (hadmissions : t.admissions = s.admissions ++
      [⟨cost, s.adaptation.currentLimit, s.activeCost + cost⟩]) : Capped maxLimit t := by
  refine ⟨hlimit ▸ h.limit, ?_, ?_⟩
  · rw [hcost]
    exact hfits.trans h.limit
  · rw [hadmissions]
    intro a ha
    rcases mem_append.1 ha with ha | ha
    · exact h.admissions a ha
    · rw [mem_singleton.1 ha]
      exact Or.inl hfits

theorem Capped.evictsOnly (ht : EvictsOnly s t) : Capped maxLimit t := by
  rw [ht]
  exact h.frame h.limit le_rfl rfl

theorem Capped.failQueued (entry : QueueEntry QueuedPayload)
    (code : AdmissionRejectCode) (message : String) :
    Capped maxLimit (s.failQueued entry code message) :=
  h.evictsOnly (failAll_evictsOnly code message [entry] s)

/-- A solo admission takes all there is. -/
theorem Capped.admitSolo (hl : Ledger s)
    (hmax : s.config.maxLimit ≤ maxLimit) (hover : s.adaptation.currentLimit < cost)
    (hsolo : s.shouldAdmitSolo cost = true)
    (hlimit : t.adaptation.currentLimit = s.adaptation.currentLimit)
    (hcost : t.activeCost = s.activeCost + cost) (hadmissions : t.admissions = s.admissions ++
      [⟨cost, s.adaptation.currentLimit, s.activeCost + cost⟩]) : Capped maxLimit t := by
  simp only [shouldAdmitSolo, Bool.and_eq_true, decide_eq_true_eq] at hsolo
  obtain ⟨⟨⟨⟨hcap, hsize⟩, -⟩, -⟩, -⟩ := hsolo
  have hidle : s.activeCost = 0 := by
    rw [hl.cost, tally, eq_nil_of_length_eq_zero hsize]
    rfl
  refine ⟨hlimit ▸ h.limit, by omega, ?_⟩
  rw [hadmissions]
  intro a ha
  rcases mem_append.1 ha with ha | ha
  · exact h.admissions a ha
  · rw [mem_singleton.1 ha]
    exact Or.inr ⟨hover, by dsimp only; omega, hcap.trans hmax⟩

theorem Capped.passes (hl : Ledger s) (hmax : s.config.maxLimit ≤ maxLimit)
    {p : Prop} (hp : p) (ht : Passes p s t) : Capped maxLimit t := by
  suffices h : (Ledger t ∧ t.config.maxLimit ≤ maxLimit) ∧ Capped maxLimit t from h.2
  induction ht with
  | refl => exact ⟨⟨hl, hmax⟩, h⟩
  | @tail t u _ hstep ih =>
    obtain ⟨⟨hl, hmax⟩, h⟩ := ih
    cases hstep with
    | queues hu =>
      refine ⟨⟨hl.queuesOnly hu, ?_⟩, ?_⟩
      · rw [hu.2]
        exact hmax
      · rw [hu.2]
        exact h.frame h.limit le_rfl rfl
    | @admits cost hpos hfits =>
      have hl' := hl.admitEntry (hpos hp) .none nofun nofun
      obtain ⟨integral, time, heq⟩ := t.admitEntry_eq cost .none
      rw [heq] at hl' ⊢
      refine ⟨⟨hl', hmax⟩, ?_⟩
      unfold available at hfits
      rcases hfits with hfits | ⟨hover, hsolo⟩
      · exact h.admits (by omega) rfl rfl rfl
      · exact h.admitSolo hl hmax hover hsolo rfl rfl rfl

theorem Capped.dispatch (hl : Ledger s) (hmax : s.config.maxLimit ≤ maxLimit)
    (hs : s.QueuesSound) : Capped maxLimit s.dispatch :=
  h.passes hl hmax hs (Passes.dispatch .refl id)

theorem Capped.virtualOnly (ht : VirtualOnly s t) : Capped maxLimit t := by
  rw [ht]
  exact h.frame h.limit le_rfl rfl

theorem Capped.sampleIntegral : Capped maxLimit s.sampleIntegral := by
  obtain ⟨integral, time, heq⟩ := s.sampleIntegral_eq
  rw [heq]
  exact h.frame h.limit le_rfl rfl

end

section

variable (h : Capped s.config.maxLimit s)
include h

theorem Capped.releaseLease (hl : Ledger s) (hs : s.QueuesSound)
    (id : ℕ) (outcome : AdmissionReleaseOutcome) (info : AdmissionReleaseMeta F) :
    Capped s.config.maxLimit (s.releaseLease id outcome info) := by
  rw [releaseLease_eq]
  cases hget : s.active.get id with
  | none => exact h
  | some record =>
    have hpos : 0 < record.cost := (hl.leases _ (get_eq_some.1 hget)).2
    obtain ⟨integral, time, heq⟩ := s.sampleIntegral_eq
    have hsame : (s.released id record outcome info).config = s.config ∧
        (s.released id record outcome info).activeCost = s.activeCost - record.cost ∧
        (s.released id record outcome info).admissions = s.admissions := by
      unfold released
      dsimp only
      rw [releaseVirtual_virtualOnly, heq]
      exact ⟨rfl, rfl, rfl⟩
    obtain ⟨hconfig, hcost, hadmissions⟩ := hsame
    refine Capped.dispatch ?_ (hl.released hget outcome info) (hconfig ▸ le_rfl)
      (hs.released id outcome info)
    exact h.frame (released_limit s id outcome info ▸ h.limit) (by omega) hadmissions

theorem Capped.call (hl : Ledger s) (hs : s.QueuesSound)
    (hmode : s.config.mode = .enforce) (request : AdmissionRequest F) :
    Capped s.config.maxLimit (s.call request) := by
  have hreject : ∀ (t : AdmissionController F) code message, Capped s.config.maxLimit t →
      Capped s.config.maxLimit (t.reject code message).1 :=
    fun t code message ht => ht.frame ht.limit le_rfl rfl
  have hacquire : Capped s.config.maxLimit (s.acquire request).1 := by
    rw [acquire_eq]
    split
    · exact hreject s _ _ h
    split
    · exact hreject s _ _ h
    obtain ⟨adaptation, hlimit, heq⟩ := s.notePressure_eq request
    rw [heq]
    generalize ht : ({ s with adaptation } : AdmissionController F) = t
    have hconfig : t.config = s.config := by rw [← ht]
    have hcapped : Capped s.config.maxLimit t := by
      rw [← ht]
      exact h.frame (hlimit ▸ h.limit) le_rfl rfl
    have hledger : Ledger t := by
      rw [← ht]
      exact hl.frame hlimit rfl le_rfl
    unfold acquireMode
    rw [← hconfig] at hmode hcapped hreject ⊢
    have hsound : t.QueuesSound := by
      rw [← ht]
      exact hs
    cases hcost : t.resolveCost request with
    | error message => exact hcapped
    | ok cost =>
      dsimp only
      rw [hmode]
      exact hcapped.passes hledger le_rfl trivial
        (Passes.acquireEnforce .refl (fun _ => hsound) request (resolveCost_mem hcost).1)
  unfold AdmissionController.call
  rcases hcall : s.acquire request with ⟨t, result⟩
  rw [hcall] at hacquire
  cases result with
  | error message => exact hacquire
  | ok result => exact hacquire.frame hacquire.limit le_rfl rfl

section

variable (s : AdmissionController F)

omit h in
theorem dispatch_config : s.dispatch.config = s.config := by
  have hserve : ∀ (t : AdmissionController F) entry, (t.serveEntry entry).1.config = t.config := by
    intro t entry
    rcases t.serveEntry_cases entry with heq | ⟨code, message, heq⟩
    · obtain ⟨integral, time, hq⟩ := t.admitQueued_eq entry
      rw [heq, hq]
    · rw [heq]
      rfl
  apply dispatch_induct (P := fun t => t.config = s.config) ?_ ?_ ?_ rfl
  · intro t entry q ht _ _
    exact (hserve _ entry).trans ht
  · intro t key lane entry q ht _ _ _
    exact (hserve _ entry).trans ht
  · intro t key ht
    rcases t.removeEmptyLane_cases key with heq | ⟨lane, -, -, heq⟩
    · rw [heq]
      exact ht
    · rw [heq]
      exact ht

omit h in
theorem rearm_config : s.rearm.config = s.config := by
  unfold rearm armWindowTimer
  split
  · rw [rebuildVirtualState_virtualOnly s]
  · rw [rebuildVirtualState_virtualOnly s]

omit h in
theorem reconfigure_config (next : ValidatedConfig F) : (s.reconfigure next).config = next := by
  rw [reconfigure_eq]
  split
  · rw [dispatch_config, rearm_config, reseat_config]
  · rw [rearm_config, reseat_config]

end

omit h in
/-- A configuration that is installed again admits nothing by itself. -/
theorem Capped.reconfigure {next : ValidatedConfig F} (h : Capped next.maxLimit s) (hl : Ledger s)
    (hs : s.QueuesSound) (hmode : next.mode = .enforce) :
    Capped next.maxLimit (s.reconfigure next) := by
  have hrequeue : ∀ (es : List (QueueEntry QueuedPayload)) (t : AdmissionController F),
      t.config = next → Capped next.maxLimit t → Capped next.maxLimit (es.foldl requeue t) := by
    intro es
    induction es with
    | nil => exact fun _ _ ht => ht
    | cons entry es ih =>
      intro t hconfig ht
      apply ih _ ((requeue_config t entry).trans hconfig)
      unfold requeue
      rw [if_neg (by rw [hconfig, hmode]; exact not_not_intro rfl)]
      split
      · exact ht.failQueued _ _ _
      cases t.queue.enqueue entry with
      | none => exact ht.failQueued _ _ _
      | some q => exact ht.frame ht.limit le_rfl rfl
  have hcleared : Capped next.maxLimit (s.sampleIntegral.clearedFor next) :=
    h.sampleIntegral.frame (min_le_left _ _) le_rfl rfl
  have hreseat : Capped next.maxLimit (s.sampleIntegral.reseat next) := hrequeue _ _ rfl hcleared
  have hvirtual := hreseat.virtualOnly (rebuildVirtualState_virtualOnly _
    ((s.sampleIntegral.reseat next).config.mode = .shadow))
  have hconfig := (rearm_config _).trans (reseat_config s.sampleIntegral next)
  rw [reconfigure_eq, if_pos hmode]
  refine Capped.dispatch ?_ (hl.rearmed hs next) (le_of_eq (congrArg _ hconfig))
    ((refl hs).sampleIntegral.reseat next).rearm.sound
  unfold rearm armWindowTimer
  split
  · exact hvirtual.frame hvirtual.limit le_rfl rfl
  · exact hvirtual.frame hvirtual.limit le_rfl rfl

/-- The limit moves within its bounds, then there is a dispatch. -/
theorem Capped.redispatch (hl : Ledger t) (hs : t.QueuesSound)
    (hconfig : t.config = s.config) (hcost : t.activeCost = s.activeCost)
    (hadmissions : t.admissions = s.admissions) :
    Capped s.config.maxLimit t.dispatch.dispatchVirtual := by
  have ht : Capped s.config.maxLimit t :=
    h.frame (hconfig ▸ hl.le_maxLimit) hcost.le hadmissions
  exact (ht.dispatch hl (hconfig ▸ le_rfl) hs).virtualOnly (dispatchVirtual_virtualOnly _)

theorem Capped.tick (hl : Ledger s) (hs : s.QueuesSound) : Capped s.config.maxLimit s.tick := by
  obtain ⟨integral, time, heq⟩ := s.sampleIntegral_eq
  refine h.redispatch hl.windowClosed hs.windowClosed (windowClosed_config s) ?_ ?_
  · show s.sampleIntegral.evictIdleLanes.activeCost = s.activeCost
    rw [evictIdleLanes_evictsOnly s.sampleIntegral, heq]
  · show s.sampleIntegral.evictIdleLanes.admissions = s.admissions
    rw [evictIdleLanes_evictsOnly s.sampleIntegral, heq]

theorem Capped.observePressure [LawfulJsNumber F] (hl : Ledger s)
    (hs : s.QueuesSound) (pressure : AdmissionPressure) :
    Capped s.config.maxLimit (s.observePressure pressure) := by
  rw [observePressure_eq]
  split
  · exact h.redispatch (hl.limitCut pressure).1 hs rfl rfl rfl
  · exact h.frame (setPressure_currentLimit s.adaptation pressure ▸ h.limit) le_rfl rfl

end

theorem Capped.new (config : ValidatedConfig F) (now : ℤ) :
    Capped config.maxLimit (new config now) := by
  have hlimit := (clampLimit_mem config.minLimit_le config.initialLimit).2
  have hmin := config.minLimit_pos
  have hmax := config.minLimit_le
  have hzero : (0 : ℤ) ≤ config.maxLimit := by omega
  unfold AdmissionController.new armWindowTimer
  split
  · exact ⟨hlimit, hzero, nofun⟩
  · exact ⟨hlimit, hzero, nofun⟩

/-- A step that keeps the configuration keeps the cap. -/
theorem Capped.step [LawfulJsNumber F] {e : AdmissionEvent F} {config : ValidatedConfig F}
    (hs : s.QueuesSound) (hl : Ledger s) (hconfig : s.config = config)
    (hmode : config.mode = .enforce) (h : Capped config.maxLimit s) (hstep : s.step e = some t)
    (hconfig' : t.config = config) : Capped config.maxLimit t := by
  subst hconfig
  cases e with
  | clock now =>
    cases hstep
    exact h.frame h.limit le_rfl rfl
  | acquire request =>
    cases hstep
    exact h.call hl hs hmode request
  | release lease outcome info =>
    cases hstep
    exact h.releaseLease hl hs lease outcome info
  | observePressure pressure =>
    cases hstep
    exact h.observePressure hl hs pressure
  | tick =>
    cases hstep
    exact h.tick hl hs
  | snapshot =>
    cases hstep
    exact h.sampleIntegral
  | updateConfig config =>
    cases hstep
    unfold updateConfig at hconfig' ⊢
    cases hvalid : validateConfig config with
    | error message => exact h
    | ok next =>
      rw [hvalid] at hconfig'
      have hnext : next = s.config := (reconfigure_config s next).symm.trans hconfig'
      rw [← hnext] at h hmode ⊢
      exact h.reconfigure hl hs hmode
  | shutdown =>
    cases hstep
    exact h.passes hl le_rfl trivial (Passes.shutdown .refl)
  | abort signal =>
    cases hstep
    exact h.passes hl le_rfl trivial (Passes.abort .refl hs signal)
  | deadline entry =>
    obtain ⟨-, -, -, rfl⟩ := step_deadline hstep
    have hfirst : Passes True s { s with timers := s.timers.delete entry } :=
      Relation.ReflTransGen.single (.queues ⟨le_rfl, rfl⟩)
    exact h.passes hl le_rfl trivial (hfirst.expireEntry hs _ _ _)
  | windowTimer =>
    obtain rfl := step_windowTimer hstep
    have htick := h.tick hl hs
    unfold armWindowTimer
    split
    · exact htick.frame htick.limit le_rfl rfl
    · exact htick.frame htick.limit le_rfl rfl
  | laneTimer =>
    obtain rfl := step_laneTimer hstep
    exact h.evictsOnly (evictIdleLanes_evictsOnly _)

/-! ## The budget -/

/-- The sum of a list of integers of which some do not count. -/
theorem sum_ite_eq_sum_filter {α : Type*} (l : List α) (p : α → Prop) [DecidablePred p]
    (f : α → ℤ) : (l.map fun a => if p a then f a else 0).sum = ((l.filter p).map f).sum := by
  induction l with
  | nil => rfl
  | cons a l ih =>
    by_cases ha : p a
    · simp [ha, ih]
    · simp [ha, ih]

theorem queueIds_perm (h : Ledger s) :
    (queueIds s.virtualQueue).Perm ((s.active.entries.filter fun p =>
      p.2.virtualDisposition = .queued).map Prod.fst) := by
  have htally : ∀ l : List (ℕ × ActiveLeaseRecord), (l.map virtualTicket).sum.map Prod.fst =
      ((l.filter fun p => p.2.virtualDisposition = .queued).map Prod.fst : List ℕ) := by
    intro l
    induction l with
    | nil => rfl
    | cons p l ih =>
      rw [map_cons, sum_cons, Multiset.map_add, ih, virtualTicket]
      by_cases hp : p.2.virtualDisposition = .queued
      · simp [hp]
      · simp [hp]
  rw [← Multiset.coe_eq_coe, ← map_id_items, ← htally]
  have hids : s.virtualQueue.items.map QueueEntry.id =
      (s.virtualQueue.items.map ticket).map Prod.fst := by
    rw [Multiset.map_map]
    rfl
  rw [hids, h.ledger.queued]
  rfl

/-- In every state of every run the limit is within its bounds, the active cost is the sum over
the active leases, the virtual cost and count are the sum and the number over those with
disposition `active`, and the virtual queue holds those with disposition `queued`. While a run
stays in mode `enforce` under one configuration, the active cost is at most `maxLimit`, and every
admission leaves it within the limit or is a solo admission. -/
theorem budget [LawfulJsNumber F] :
    (∀ s : AdmissionController F, s.Reachable →
      s.config.minLimit ≤ s.adaptation.currentLimit ∧
      s.adaptation.currentLimit ≤ s.config.maxLimit ∧
      s.activeCost = (s.active.values.map ActiveLeaseRecord.cost).sum ∧
      s.virtualActiveCost = ((s.active.values.filter fun r =>
        r.virtualDisposition = .active).map ActiveLeaseRecord.cost).sum ∧
      s.virtualActiveCount = (s.active.values.filter fun r =>
        r.virtualDisposition = .active).length ∧
      (queueIds s.virtualQueue).Perm ((s.active.entries.filter fun p =>
        p.2.virtualDisposition = .queued).map Prod.fst)) ∧
    (∀ (config : ValidatedConfig F) (now : ℤ) (es : List (AdmissionEvent F))
      (s : AdmissionController F), config.mode = .enforce →
      Trace.exec step (new config now) es = some s →
      Trace.Throughout step (fun s => s.config = config) (new config now) es →
      s.activeCost ≤ config.maxLimit ∧ ∀ a ∈ s.admissions,
        a.activeCost ≤ a.limit ∨ a.limit < a.cost ∧ a.activeCost = a.cost) := by
  constructor
  · intro s hs
    have h := hs.ledger
    refine ⟨h.minLimit_le, h.le_maxLimit, ?_, ?_, ?_, queueIds_perm h⟩
    · rw [h.cost, tally, values, map_map]
      rfl
    · rw [h.ledger.cost_eq, ← sum_ite_eq_sum_filter, tally, values, map_map]
      rfl
    · have hcount := sum_ite_eq_sum_filter s.active.values
        (fun r => r.virtualDisposition = .active) fun _ => 1
      rw [map_const', sum_replicate, nsmul_one] at hcount
      rw [h.ledger.count_eq, ← hcount, tally, values, map_map]
      rfl
  · intro config now es s hmode hrun hstays
    have hcapped : Capped config.maxLimit s := by
      have hinv := Trace.exec_invariant_of_meets
        (I := fun s => Books 0 s ∧ Ledger s ∧ Capped config.maxLimit s)
        (fun s e t ⟨hs, hl, hc⟩ hkept hstep => ⟨hs.step hstep, hl.step hs.sound hstep,
          hc.step hs.sound hl hkept.1 hmode hstep (hkept.2 t hstep)⟩)
        ⟨Books.new config now, Ledger.new config now, Capped.new config now⟩ hstays.meets hrun
      exact hinv.2.2
    refine ⟨hcapped.cost, ?_⟩
    intro a ha
    rcases hcapped.admissions a ha with hfits | ⟨hover, hsolo, -⟩
    · exact Or.inl hfits
    · exact Or.inr ⟨hover, hsolo⟩

/-- A request above the limit is admitted alone, and one that fits later. -/
theorem budget_solo :
    ∃ s : AdmissionController ℚ, Trace.exec step
        (new { smallConfig .enforce false with initialLimit := 4 } 0)
        [.acquire { cost := some 7 }, .release 1 .success {}, .acquire { cost := some 3 }] = some s ∧
      s.admissions.length = 2 ∧ s.activeCost ≤ 10 ∧ (∀ a ∈ s.admissions,
        a.activeCost ≤ a.limit ∨ a.limit < a.cost ∧ a.activeCost = a.cost) ∧
      s.adaptation.currentLimit ≤ s.config.maxLimit := by
  obtain ⟨s, hrun, hcount⟩ : ∃ s : AdmissionController ℚ, Trace.exec step
      (new { smallConfig .enforce false with initialLimit := 4 } 0)
      [.acquire { cost := some 7 }, .release 1 .success {}, .acquire { cost := some 3 }] = some s ∧
      s.admissions.length = 2 := by
    refine ⟨_, rfl, ?_⟩
    decide +kernel
  have hstays : Trace.Throughout step
      (fun s => s.config = { smallConfig .enforce false with initialLimit := 4 })
      (new { smallConfig .enforce false with initialLimit := 4 } 0)
      [.acquire { cost := some 7 }, .release 1 .success {}, .acquire { cost := some 3 }] := by
    refine ⟨rfl, fun s₁ hs₁ => ⟨?_, fun s₂ hs₂ => ⟨?_, fun s₃ hs₃ => ?_⟩⟩⟩
    · cases hs₁
      with_unfolding_all rfl
    · cases hs₁
      cases hs₂
      with_unfolding_all rfl
    · cases hs₁
      cases hs₂
      cases hs₃
      with_unfolding_all rfl
  obtain ⟨hledger, hcap⟩ := budget (F := ℚ)
  obtain ⟨hcost, hwithin⟩ := hcap _ 0 _ s rfl hrun hstays
  exact ⟨s, hrun, hcount, hcost, hwithin, (hledger s ⟨_, _, _, hrun⟩).2.1⟩

end OmniRoute.AdmissionController
