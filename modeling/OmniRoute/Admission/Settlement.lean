import OmniRoute.Admission.Dispatch

/-!
# Every request is settled once

A call of `acquire` that returns is admitted, rejected or queued. A queued entry moves between the
shared queue, the lanes and the drained lists, and leaves them to be admitted or rejected.

**Main result (`settles_once`).** In every state of every run, the calls are the admitted, the
rejected and the queued ones; a promise is settled once if its entry has left the queues and not
at all while it is queued, and what is settled stays so; after a shutdown nothing is queued.

`Owes s es t` says that the state `t` has taken the entries `es` out of the queues of `s` and has
not settled them yet. Taking an entry adds to what is owed, settling or queueing it again pays it
off, and an operation is a change from `s` to some `t` that owes nothing (`Keeps`).
-/

namespace OmniRoute.AdmissionController

open FairCostQueue List OrdMap

variable {F : Type} [JsNumber F]

/-! ## What is waiting -/

/-- The entries of a lane. -/
def laneItems (p : String × AdmissionLane) : Multiset (QueueEntry QueuedPayload) := p.2.queue.items

theorem laneItems_mk (key : String) (lane : AdmissionLane) :
    laneItems (key, lane) = lane.queue.items := rfl

/-- All queued entries. -/
def waiting (s : AdmissionController F) : Multiset (QueueEntry QueuedPayload) :=
  s.queue.items + tally laneItems s.virtualLanes

/-- The counters of all queues are right. -/
def QueuesSound (s : AdmissionController F) : Prop :=
  s.queue.Sound ∧ ∀ p ∈ s.virtualLanes.entries, p.2.queue.Sound

/-- Admitted, rejected and queued requests. -/
def total (s : AdmissionController F) : ℕ := s.admittedCount + s.rejectedCount + s.waiting.card

/-- The promises that are settled or wait. -/
def promises (s : AdmissionController F) : Multiset ℕ :=
  ↑(s.settled.map Prod.fst) + s.waiting.map QueueEntry.id

/-! ## What is owed -/

structure Owes (s : AdmissionController F) (es : List (QueueEntry QueuedPayload))
    (t : AdmissionController F) : Prop where
  sound : t.QueuesSound
  calls : t.calls = s.calls
  issued : t.issued = s.issued
  shutDown : t.shutDown = s.shutDown
  seq : s.leaseSeq ≤ t.leaseSeq
  settled : s.settled <+: t.settled
  total : t.total + es.length = s.total
  promises : t.promises + ↑(es.map QueueEntry.id) = s.promises
  waiting : ↑(es.map QueueEntry.bare) + t.waiting ≤ s.waiting

/-- Nothing is owed. -/
abbrev Keeps (s t : AdmissionController F) : Prop := Owes s [] t

variable {s : AdmissionController F}

theorem Keeps.refl (h : s.QueuesSound) : Keeps s s where
  sound := h
  calls := rfl
  issued := rfl
  shutDown := rfl
  seq := le_rfl
  settled := prefix_refl _
  total := rfl
  promises := by simp
  waiting := by simp

variable {t u : AdmissionController F} {es : List (QueueEntry QueuedPayload)}

theorem Keeps.trans (h₁ : Keeps s t) (h₂ : Owes t es u) : Owes s es u where
  sound := h₂.sound
  calls := h₂.calls.trans h₁.calls
  issued := h₂.issued.trans h₁.issued
  shutDown := h₂.shutDown.trans h₁.shutDown
  seq := h₁.seq.trans h₂.seq
  settled := h₁.settled.trans h₂.settled
  total := h₂.total.trans h₁.total
  promises := by
    have h := h₁.promises
    rw [map_nil, Multiset.coe_nil, Multiset.add_zero] at h
    exact h₂.promises.trans h
  waiting := by
    have h := h₁.waiting
    rw [map_nil, Multiset.coe_nil, Multiset.zero_add] at h
    exact h₂.waiting.trans h

/-- What an operation that settles nothing leaves alone. -/
def books (s : AdmissionController F) : ℕ × List ℕ × Bool × List (ℕ × Settlement) × ℕ × ℕ :=
  (s.calls, s.issued, s.shutDown, s.settled, s.admittedCount, s.rejectedCount)

/-- The same entries wait, perhaps elsewhere. -/
theorem Owes.rearrange (h : Owes s es t) (hwaiting : u.waiting = t.waiting) (hsound : u.QueuesSound)
    (hbooks : u.books = t.books) (hseq : t.leaseSeq ≤ u.leaseSeq) : Owes s es u := by
  simp only [books, Prod.mk.injEq] at hbooks
  obtain ⟨hcalls, hissued, hshut, hsettled, hadmitted, hrejected⟩ := hbooks
  have htotal : u.total = t.total := by
    unfold AdmissionController.total
    rw [hadmitted, hrejected, hwaiting]
  have hpromises : u.promises = t.promises := by
    unfold AdmissionController.promises
    rw [hsettled, hwaiting]
  exact ⟨hsound, hcalls.trans h.calls, hissued.trans h.issued, hshut.trans h.shutDown,
    h.seq.trans hseq, hsettled ▸ h.settled, htotal ▸ h.total, hpromises ▸ h.promises,
    hwaiting ▸ h.waiting⟩

theorem Owes.frame (h : Owes s es t) (hqueue : u.queue = t.queue)
    (hlanes : u.virtualLanes = t.virtualLanes) (hbooks : u.books = t.books)
    (hseq : t.leaseSeq ≤ u.leaseSeq) : Owes s es u := by
  refine h.rearrange ?_ ?_ hbooks hseq
  · unfold AdmissionController.waiting
    rw [hqueue, hlanes]
  · unfold QueuesSound
    rw [hqueue, hlanes]
    exact h.sound

variable {entry : QueueEntry QueuedPayload}

/-- Entries are taken out of the queues. -/
theorem Keeps.takeAll (h : Keeps s t) (hwaiting : t.waiting = ↑(es.map QueueEntry.bare) + u.waiting)
    (hsound : u.QueuesSound) (hbooks : u.books = t.books) (hseq : t.leaseSeq ≤ u.leaseSeq) :
    Owes s es u := by
  simp only [books, Prod.mk.injEq] at hbooks
  obtain ⟨hcalls, hissued, hshut, hsettled, hadmitted, hrejected⟩ := hbooks
  refine h.trans ⟨hsound, hcalls, hissued, hshut, hseq, by rw [hsettled], ?_, ?_, ?_⟩
  · unfold total
    rw [hadmitted, hrejected, hwaiting, Multiset.card_add, Multiset.coe_card, length_map]
    omega
  · unfold promises
    have hids : (es.map QueueEntry.bare).map QueueEntry.id = es.map QueueEntry.id := map_map
    rw [hsettled, hwaiting, Multiset.map_add, Multiset.map_coe, hids]
    abel
  · rw [hwaiting]

theorem Keeps.take (h : Keeps s t) (hwaiting : t.waiting = entry.bare ::ₘ u.waiting)
    (hsound : u.QueuesSound) (hbooks : u.books = t.books) (hseq : t.leaseSeq ≤ u.leaseSeq) :
    Owes s [entry] u :=
  h.takeAll hwaiting hsound hbooks hseq

theorem Owes.pay {how : Settlement} (h : Owes s (entry :: es) t) (hqueue : u.queue = t.queue)
    (hlanes : u.virtualLanes = t.virtualLanes) (hcalls : u.calls = t.calls)
    (hissued : u.issued = t.issued) (hshut : u.shutDown = t.shutDown)
    (hseq : t.leaseSeq ≤ u.leaseSeq) (hsettled : u.settled = t.settled ++ [(entry.id, how)])
    (hcount : u.admittedCount + u.rejectedCount = t.admittedCount + t.rejectedCount + 1) :
    Owes s es u := by
  have hwaiting : u.waiting = t.waiting := by
    unfold AdmissionController.waiting
    rw [hqueue, hlanes]
  refine ⟨?_, hcalls.trans h.calls, hissued.trans h.issued, hshut.trans h.shutDown,
    h.seq.trans hseq, ?_, ?_, ?_, ?_⟩
  · unfold QueuesSound
    rw [hqueue, hlanes]
    exact h.sound
  · rw [hsettled]
    exact h.settled.trans (List.prefix_append _ _)
  · have htotal := h.total
    unfold AdmissionController.total at htotal ⊢
    rw [hwaiting]
    rw [length_cons] at htotal
    omega
  · have hpromises := h.promises
    unfold AdmissionController.promises at hpromises ⊢
    rw [← hpromises, hsettled, hwaiting, map_append, ← Multiset.coe_add, map_singleton,
      Multiset.coe_singleton, map_cons, ← Multiset.cons_coe, ← Multiset.singleton_add]
    abel
  · refine le_trans ?_ h.waiting
    rw [hwaiting, map_cons, ← Multiset.cons_coe, Multiset.cons_add]
    exact Multiset.le_cons_self _ _

theorem Owes.fail (h : Owes s (entry :: es) t) (code : AdmissionRejectCode) (message : String) :
    Owes s es (t.failQueued entry code message) := by
  rw [failQueued_eq]
  exact h.pay rfl rfl rfl rfl rfl le_rfl rfl (Nat.add_assoc _ _ _).symm

theorem Owes.admitQueued (h : Owes s (entry :: es) t) : Owes s es (t.admitQueued entry) := by
  obtain ⟨integral, time, heq⟩ := t.admitQueued_eq entry
  rw [heq]
  exact h.pay rfl rfl rfl rfl rfl (Nat.le_succ _) rfl (by dsimp only; omega)

theorem Owes.serve (h : Owes s [entry] t) : Keeps s (t.serveEntry entry).1 := by
  rcases t.serveEntry_cases entry with hserve | ⟨code, message, hserve⟩
  · rw [hserve]
    exact h.admitQueued
  · rw [hserve]
    exact h.fail code message

/-- A list of entries is rejected. -/
theorem Owes.failAll (h : Owes s es t) (code : AdmissionRejectCode) (message : String) :
    Keeps s (es.foldl (fun t entry => t.failQueued entry code message) t) := by
  induction es generalizing t with
  | nil => exact h
  | cons entry es ih => exact ih (h.fail code message)

/-! ## Taking entries out -/

theorem bare_of_mem_items {τ : Type} {q : FairCostQueue τ} {e : QueueEntry τ} (h : e ∈ q.items) :
    e.bare = e := by
  rw [items_view, mem_itemsOf] at h
  obtain ⟨-, -, e', -, rfl⟩ := h
  exact e'.bare_bare

theorem map_bare_drain {τ : Type} {q : FairCostQueue τ} (h : q.Sound) :
    q.drain.1.map QueueEntry.bare = q.drain.1 := by
  have hid : ∀ e ∈ q.drain.1, e.bare = e := by
    intro e he
    apply bare_of_mem_items (q := q)
    rw [← h.drain.1]
    exact he
  rw [map_congr_left hid]
  exact List.map_id _

variable {q : FairCostQueue QueuedPayload}

/-- The entry served by a dequeue from the shared queue. -/
theorem Keeps.takeShared {maxCost : ℤ} (h : Keeps s t)
    (hdeq : t.queue.dequeue maxCost = some (entry, q)) : Owes s [entry] { t with queue := q } := by
  have hitems := (items_dequeue hdeq).1
  have hbare : entry.bare = entry :=
    bare_of_mem_items (by rw [hitems]; exact Multiset.mem_cons_self _ _)
  refine h.take ?_ ⟨h.sound.1.dequeue hdeq, h.sound.2⟩ rfl le_rfl
  unfold waiting
  rw [hitems, hbare, Multiset.cons_add]

variable {key : String}

/-- The counters of a lane are right. -/
theorem QueuesSound.lane (h : s.QueuesSound) {lane : AdmissionLane}
    (hget : s.virtualLanes.get key = some lane) : lane.queue.Sound :=
  h.2 (key, lane) (get_eq_some.1 hget)

variable {lane : AdmissionLane}

theorem QueuesSound.set (h : s.QueuesSound) (key : String) (hlane : lane.queue.Sound) :
    QueuesSound { s with virtualLanes := s.virtualLanes.set key lane } := by
  refine ⟨h.1, ?_⟩
  intro p hp
  rcases mem_set hp with rfl | hp
  · exact hlane
  · exact h.2 p hp

theorem QueuesSound.delete (h : s.QueuesSound) (key : String) :
    QueuesSound { s with virtualLanes := s.virtualLanes.delete key } :=
  ⟨h.1, fun p hp => h.2 p (mem_of_mem_delete hp)⟩

/-- The waiting entries without those of a lane. -/
theorem waiting_get (hget : s.virtualLanes.get key = some lane) :
    s.waiting = lane.queue.items + (s.queue.items + tally laneItems (s.virtualLanes.delete key)) := by
  unfold waiting
  rw [tally_get hget, laneItems_mk]
  abel

theorem waiting_set (s : AdmissionController F) (key : String) (lane : AdmissionLane) :
    waiting { s with virtualLanes := s.virtualLanes.set key lane } =
      lane.queue.items + (s.queue.items + tally laneItems (s.virtualLanes.delete key)) := by
  unfold waiting
  rw [tally_set, laneItems_mk]
  abel

/-- An entry goes out of a lane. -/
theorem Keeps.takeLane {lane lane' : AdmissionLane} (h : Keeps s t)
    (hget : t.virtualLanes.get key = some lane) (hsound : lane'.queue.Sound)
    (hitems : lane.queue.items = entry.bare ::ₘ lane'.queue.items) :
    Owes s [entry] { t with virtualLanes := t.virtualLanes.set key lane' } := by
  refine h.take ?_ (h.sound.set key hsound) rfl le_rfl
  rw [waiting_get hget, waiting_set, hitems, Multiset.cons_add]

/-- The entry served by a dequeue from a lane. -/
theorem Keeps.dequeueLane {lane : AdmissionLane} {maxCost : ℤ} (h : Keeps s t)
    (hget : t.virtualLanes.get key = some lane)
    (hdeq : lane.queue.dequeue maxCost = some (entry, q)) :
    Owes s [entry] (t.putLane key lane q) := by
  have hlane := h.sound.lane hget
  have hitems := (items_dequeue hdeq).1
  have hbare : entry.bare = entry :=
    bare_of_mem_items (by rw [hitems]; exact Multiset.mem_cons_self _ _)
  exact h.takeLane hget (hlane.dequeue hdeq) (by rw [hitems, hbare])

/-- An empty lane is dropped. -/
theorem Owes.removeEmptyLane (h : Owes s es t) (key : String) :
    Owes s es (t.removeEmptyLane key) := by
  rcases t.removeEmptyLane_cases key with heq | ⟨lane, hget, hcount, heq⟩
  · rw [heq]
    exact h
  · rw [heq]
    have hempty : lane.queue.items = 0 :=
      Multiset.card_eq_zero.1 ((h.sound.lane hget).count ▸ hcount)
    have hwaiting : AdmissionController.waiting
        { t with virtualLanes := t.virtualLanes.delete key } = t.waiting := by
      rw [waiting_get hget, hempty, Multiset.zero_add]
      rfl
    exact h.rearrange hwaiting (h.sound.delete key) rfl le_rfl

theorem Keeps.dispatch (h : Keeps s t) : Keeps s t.dispatch := by
  apply dispatch_induct (P := Keeps s) ?_ ?_ ?_ h
  · intro t entry q ht _ hdeq
    exact (ht.takeShared hdeq).serve
  · intro t key lane entry q ht _ hget hdeq
    exact (ht.dequeueLane hget hdeq).serve
  · intro t key ht
    exact ht.removeEmptyLane key

/-! ## The operations -/

variable (code : AdmissionRejectCode)

theorem failAll_lanes (message : String)
    (es : List (QueueEntry QueuedPayload)) (s : AdmissionController F) :
    (es.foldl (fun t entry => t.failQueued entry code message) s).virtualLanes = s.virtualLanes := by
  induction es generalizing s with
  | nil => rfl
  | cons entry es ih => exact ih (s.failQueued entry code message)

theorem failAll_setLanes (message : String)
    (es : List (QueueEntry QueuedPayload)) (s : AdmissionController F)
    (virtualLanes : OrdMap String AdmissionLane) :
    { es.foldl (fun t entry => t.failQueued entry code message) s with virtualLanes } =
      es.foldl (fun t entry => t.failQueued entry code message) { s with virtualLanes } := by
  induction es generalizing s with
  | nil => rfl
  | cons entry es ih =>
    rw [foldl_cons, foldl_cons, ih (s.failQueued entry code message)]
    rfl

section

variable (h : Keeps s t)
include h

theorem Keeps.deleteLane (key : String) : Keeps s (t.deleteLane key) := by
  unfold AdmissionController.deleteLane
  cases hget : t.virtualLanes.get key with
  | none => exact h
  | some lane =>
    have hlane := h.sound.lane hget
    have howes : Owes s lane.queue.drain.1
        { t with virtualLanes := t.virtualLanes.delete key } := by
      refine h.takeAll ?_ (h.sound.delete key) rfl le_rfl
      rw [map_bare_drain hlane, waiting_get hget, hlane.drain.1]
      rfl
    dsimp only
    -- the code rejects the entries first and deletes the lane then
    rw [failAll_lanes, failAll_setLanes]
    exact howes.failAll _ _

theorem Keeps.deleteLanes (keys : List String) :
    Keeps s (keys.foldl AdmissionController.deleteLane t) := by
  induction keys generalizing t with
  | nil => exact h
  | cons key keys ih => exact ih (h.deleteLane key)

theorem Keeps.evictIdleLanes : Keeps s t.evictIdleLanes := by
  unfold AdmissionController.evictIdleLanes
  dsimp only
  generalize (t.virtualLanes.entries.filter _).map Prod.fst = keys
  have hkeys := h.deleteLanes keys
  split
  · exact hkeys.frame rfl rfl rfl le_rfl
  · exact hkeys.frame rfl rfl rfl le_rfl

theorem Keeps.sampleIntegral : Keeps s t.sampleIntegral := by
  obtain ⟨integral, time, heq⟩ := t.sampleIntegral_eq
  rw [heq]
  exact h.frame rfl rfl rfl le_rfl

theorem Keeps.virtualOnly (hu : VirtualOnly t u) : Keeps s u := by
  rw [hu]
  exact h.frame rfl rfl rfl le_rfl

theorem Keeps.releaseLease (id : ℕ) (outcome : AdmissionReleaseOutcome)
    (info : AdmissionReleaseMeta F) : Keeps s (t.releaseLease id outcome info) := by
  unfold AdmissionController.releaseLease
  cases t.active.get id with
  | none => exact h
  | some record =>
    have hfinish : ∀ (t : AdmissionController F) (adaptation : AdaptationState F)
        (active : OrdMap ℕ ActiveLeaseRecord) (activeCost : ℤ), Keeps s t →
        Keeps s ({ t with active, activeCost, adaptation }.releaseVirtual id record).dispatch := by
      intro t adaptation active activeCost ht
      have hframe : Keeps s { t with active, activeCost, adaptation } :=
        ht.frame rfl rfl rfl le_rfl
      exact (hframe.virtualOnly (releaseVirtual_virtualOnly _ id record)).dispatch
    exact hfinish t.sampleIntegral _ _ _ h.sampleIntegral

theorem Keeps.observePressure (pressure : AdmissionPressure) :
    Keeps s (t.observePressure pressure) := by
  unfold AdmissionController.observePressure
  dsimp only
  split
  · apply Keeps.virtualOnly ?_ (dispatchVirtual_virtualOnly _)
    apply Keeps.dispatch
    exact h.frame rfl rfl rfl le_rfl
  · exact h.frame rfl rfl rfl le_rfl

theorem Keeps.tick : Keeps s t.tick := by
  unfold AdmissionController.tick
  apply Keeps.virtualOnly ?_ (dispatchVirtual_virtualOnly _)
  apply Keeps.dispatch
  exact h.sampleIntegral.evictIdleLanes.frame rfl rfl rfl le_rfl

theorem Keeps.armWindowTimer : Keeps s t.armWindowTimer := by
  unfold AdmissionController.armWindowTimer
  split
  · exact h.frame rfl rfl rfl le_rfl
  · exact h.frame rfl rfl rfl le_rfl

omit h in
/-- Nothing happens, or an entry is taken out, rejected, and the rest dispatched. -/
theorem expired_cases (hs : s.QueuesSound) (id : ℕ) (code : AdmissionRejectCode)
    (message : String) :
    s.expired id code message = none ∨ ∃ entry queue virtualLanes,
      Owes s [entry] { s with queue, virtualLanes } ∧
      s.expired id code message =
        some ({ s with queue, virtualLanes }.failQueued entry code message) := by
  have h := Keeps.refl hs
  unfold expired withdraw
  cases hshared : s.queue.removeById id with
  | some r =>
    have hitems := (items_removeById hs.1.cursor hshared).1
    have howes : Owes s [r.1] { s with queue := r.2 } := by
      refine h.take ?_ ⟨hs.1.removeById hshared, hs.2⟩ rfl le_rfl
      unfold waiting
      rw [hitems, Multiset.cons_add]
    exact Or.inr ⟨r.1, r.2, s.virtualLanes, howes, rfl⟩
  | none =>
    cases hlane : findInLanes id s.virtualLanes.entries with
    | none => exact Or.inl rfl
    | some r =>
      obtain ⟨key, lane', entry⟩ := r
      obtain ⟨lane, hmem, -, hrem⟩ := findInLanes_some hlane
      have hget : s.virtualLanes.get key = some lane := get_eq_some.2 hmem
      have hsound := hs.lane hget
      have howes := (h.takeLane hget (hsound.removeById hrem)
        (items_removeById hsound.cursor hrem).1).removeEmptyLane entry.tenantKey
      dsimp only
      rcases removeEmptyLane_cases
        { s with virtualLanes := s.virtualLanes.set key lane' } entry.tenantKey with
        heq | ⟨_, _, _, heq⟩
      · rw [heq] at howes ⊢
        exact Or.inr ⟨entry, s.queue, _, howes, rfl⟩
      · rw [heq] at howes ⊢
        exact Or.inr ⟨entry, s.queue, _, howes, rfl⟩

omit h in
theorem expireEntry_cases (hs : s.QueuesSound) (id : ℕ) (code : AdmissionRejectCode)
    (message : String) :
    s.expireEntry id code message = s ∨ ∃ entry queue virtualLanes,
      Owes s [entry] { s with queue, virtualLanes } ∧
      s.expireEntry id code message =
        ({ s with queue, virtualLanes }.failQueued entry code message).dispatch := by
  rw [expireEntry_eq]
  rcases expired_cases hs id code message with heq | ⟨entry, queue, virtualLanes, howes, heq⟩
  · rw [heq]
    exact Or.inl rfl
  · rw [heq]
    exact Or.inr ⟨entry, queue, virtualLanes, howes, rfl⟩

theorem Keeps.expireEntry (id : ℕ) (code : AdmissionRejectCode) (message : String) :
    Keeps s (t.expireEntry id code message) := by
  rcases expireEntry_cases h.sound id code message with heq | ⟨entry, queue, lanes, howes, heq⟩
  · rw [heq]
    exact h
  · rw [heq]
    exact h.trans (Keeps.dispatch (howes.fail code message))

theorem Keeps.onAbort (signal entry : ℕ) : Keeps s (t.onAbort signal entry) := by
  unfold AdmissionController.onAbort
  split
  · apply Keeps.expireEntry
    exact h.frame rfl rfl rfl le_rfl
  · exact h

theorem Keeps.abort (signal : ℕ) : Keeps s (t.abort signal) := by
  unfold AdmissionController.abort
  split
  · exact h
  dsimp only
  have hstart : Keeps s { t with aborted := signal :: t.aborted } :=
    h.frame rfl rfl rfl le_rfl
  generalize (t.listeners.filter fun x => x.2 = signal).map Prod.fst = entries
  generalize ({ t with aborted := signal :: t.aborted } : AdmissionController F) = u at hstart ⊢
  induction entries generalizing u with
  | nil => exact hstart
  | cons entry entries ih => exact ih _ (hstart.onAbort signal entry)

omit h in
/-- A drained entry joins the shared queue again. -/
theorem Owes.rejoin (h : Owes s (entry :: es) t) (henq : t.queue.enqueue entry = some q) :
    Owes s es { t with queue := q } := by
  have hwaiting : AdmissionController.waiting { t with queue := q } = entry.bare ::ₘ t.waiting := by
    unfold AdmissionController.waiting
    rw [items_enqueue henq, Multiset.cons_add]
  refine ⟨⟨h.sound.1.enqueue henq, h.sound.2⟩, h.calls, h.issued, h.shutDown, h.seq, h.settled,
    ?_, ?_, ?_⟩
  · rw [← h.total]
    unfold AdmissionController.total
    rw [hwaiting, Multiset.card_cons, length_cons]
    dsimp only
    omega
  · rw [← h.promises]
    unfold AdmissionController.promises
    rw [hwaiting, Multiset.map_cons, map_cons, ← Multiset.cons_coe, ← Multiset.singleton_add,
      ← Multiset.singleton_add]
    show _ + ({entry.id} + _) + _ = _ + _ + ({entry.id} + _)
    abel
  · refine le_trans (le_of_eq ?_) h.waiting
    rw [hwaiting, map_cons, ← Multiset.cons_coe, Multiset.add_cons, Multiset.cons_add]

omit h in
theorem Owes.requeue (h : Owes s (entry :: es) t) : Owes s es (t.requeue entry) := by
  unfold AdmissionController.requeue
  split
  · exact h.admitQueued
  split
  · exact h.fail _ _
  cases henq : t.queue.enqueue entry with
  | none => exact h.fail _ _
  | some q => exact h.rejoin henq

omit h in
theorem Owes.requeueAll (h : Owes s es t) : Keeps s (es.foldl AdmissionController.requeue t) := by
  induction es generalizing t with
  | nil => exact h
  | cons entry es ih => exact ih h.requeue

omit h in
/-- What the lanes drain to. -/
theorem drain_lanes {lanes : OrdMap String AdmissionLane}
    (h : ∀ p ∈ lanes.entries, p.2.queue.Sound) :
    ↑(lanes.values.flatMap fun lane => lane.queue.drain.1) = tally laneItems lanes ∧
      (lanes.values.flatMap fun lane => lane.queue.drain.1).map QueueEntry.bare =
        lanes.values.flatMap fun lane => lane.queue.drain.1 := by
  unfold values tally laneItems
  generalize lanes.entries = l at h
  induction l with
  | nil => exact ⟨rfl, rfl⟩
  | cons p l ih =>
    have hp := h p mem_cons_self
    obtain ⟨hsum, hbare⟩ := ih fun p hp => h p (mem_cons_of_mem _ hp)
    simp only [map_cons, flatMap_cons, sum_cons, map_append]
    exact ⟨by rw [← hsum, ← hp.drain.1, Multiset.coe_add], by rw [map_bare_drain hp, hbare]⟩

theorem Keeps.reseat (next : ValidatedConfig F) : Keeps s (t.reseat next) := by
  have hlanes := drain_lanes h.sound.2
  have howes : Owes s t.drainAll (t.clearedFor next) := by
    refine h.takeAll ?_ ⟨Sound.new _ _, nofun⟩ rfl le_rfl
    unfold drainAll
    rw [map_append, map_bare_drain h.sound.1, hlanes.2, ← Multiset.coe_add, hlanes.1,
      h.sound.1.drain.1]
    exact (Multiset.add_zero _).symm
  exact howes.requeueAll

theorem Keeps.rearm : Keeps s t.rearm :=
  (h.virtualOnly (rebuildVirtualState_virtualOnly t (t.config.mode = .shadow))).armWindowTimer

theorem Keeps.reconfigure (next : ValidatedConfig F) : Keeps s (t.reconfigure next) := by
  have hrearm := (h.sampleIntegral.reseat next).rearm
  rw [reconfigure_eq]
  split
  · exact hrearm.dispatch
  · exact hrearm

end

/-! ## The books -/

/-- The accounts of a state in which `n` calls of `acquire` are decided and have not returned. -/
structure Books (n : ℕ) (s : AdmissionController F) : Prop where
  sound : s.QueuesSound
  total : s.total = s.calls + n
  promises : s.promises = ↑s.issued
  nodup : s.issued.Nodup
  issued_le : ∀ id ∈ s.issued, id ≤ s.leaseSeq
  idle : s.shutDown = true → s.waiting = 0

theorem Books.keeps {n : ℕ} (hs : Books n s) (h : Keeps s t) :
    Books n t where
  sound := h.sound
  total := by
    rw [h.calls, ← hs.total, ← h.total]
    rfl
  promises := by
    have hpromises := h.promises
    rw [map_nil, Multiset.coe_nil, Multiset.add_zero] at hpromises
    rw [hpromises, h.issued, hs.promises]
  nodup := h.issued ▸ hs.nodup
  issued_le := fun id hid => (hs.issued_le id (h.issued ▸ hid)).trans h.seq
  idle := by
    intro hshut
    have hle := h.waiting
    rw [hs.idle (h.shutDown ▸ hshut)] at hle
    exact Multiset.le_zero.1 (le_trans (Multiset.le_add_left _ _) hle)

theorem Books.keep {n : ℕ} (hs : Books n s) (h : Keeps s s → Keeps s t) : Books n t :=
  hs.keeps (h (Keeps.refl hs.sound))

/-- One more request is admitted or rejected. -/
theorem Books.count (hs : Books 0 s) (hqueue : t.queue = s.queue)
    (hlanes : t.virtualLanes = s.virtualLanes) (hcalls : t.calls = s.calls)
    (hissued : t.issued = s.issued) (hshut : t.shutDown = s.shutDown)
    (hseq : s.leaseSeq ≤ t.leaseSeq) (hsettled : t.settled = s.settled)
    (hcount : t.admittedCount + t.rejectedCount = s.admittedCount + s.rejectedCount + 1) :
    Books 1 t := by
  have hwaiting : t.waiting = s.waiting := by
    unfold waiting
    rw [hqueue, hlanes]
  refine ⟨?_, ?_, ?_, hissued ▸ hs.nodup, ?_, ?_⟩
  · unfold QueuesSound
    rw [hqueue, hlanes]
    exact hs.sound
  · have htotal := hs.total
    unfold AdmissionController.total at htotal ⊢
    rw [hwaiting, hcalls]
    omega
  · rw [hissued, ← hs.promises]
    unfold AdmissionController.promises
    rw [hsettled, hwaiting]
  · intro id hid
    exact (hs.issued_le id (hissued ▸ hid)).trans hseq
  · intro h
    rw [hwaiting]
    exact hs.idle (hshut ▸ h)

/-- One more request is queued. -/
theorem Books.join (hs : Books 0 s) (hwaiting : t.waiting = entry.bare ::ₘ s.waiting)
    (hsound : t.QueuesSound) (hopen : t.shutDown = false) (hfresh : entry.id ∉ s.issued)
    (hseq : entry.id ≤ t.leaseSeq) (hle : s.leaseSeq ≤ t.leaseSeq) (hcalls : t.calls = s.calls)
    (hissued : t.issued = s.issued ++ [entry.id]) (hsettled : t.settled = s.settled)
    (hadmitted : t.admittedCount = s.admittedCount)
    (hrejected : t.rejectedCount = s.rejectedCount) : Books 1 t := by
  refine ⟨hsound, ?_, ?_, ?_, ?_, ?_⟩
  · have htotal := hs.total
    unfold AdmissionController.total at htotal ⊢
    rw [hadmitted, hrejected, hwaiting, hcalls, Multiset.card_cons]
    omega
  · have hpromises := hs.promises
    unfold AdmissionController.promises at hpromises ⊢
    rw [hsettled, hwaiting, hissued, Multiset.map_cons, Multiset.add_cons, hpromises,
      Multiset.cons_coe, Multiset.coe_eq_coe]
    exact (perm_append_singleton _ _).symm
  · rw [hissued]
    exact hs.nodup.append (nodup_singleton _) (by simpa using hfresh)
  · rw [hissued]
    intro id hid
    rcases mem_append.1 hid with hid | hid
    · exact (hs.issued_le id hid).trans hle
    · rw [mem_singleton.1 hid]
      exact hseq
  · intro h
    rw [hopen] at h
    cases h

/-- The books after an `acquire`: a call that throws does not count. -/
def Decided (r : AdmissionController F × Except String AdmissionAcquireResult) : Prop :=
  match r with
  | (t, .ok _) => Books 1 t
  | (t, .error _) => Books 0 t

theorem Books.reject (hs : Books 0 s) (code : AdmissionRejectCode) (message : String) :
    Decided (s.reject code message) :=
  Books.count hs rfl rfl rfl rfl rfl le_rfl rfl rfl

theorem Books.admitEntry (hs : Books 0 s) (cost : ℤ) (disposition : VirtualDisposition) :
    Books 1 (s.admitEntry cost disposition).1 := by
  obtain ⟨integral, time, heq⟩ := s.admitEntry_eq cost disposition
  rw [heq]
  refine hs.count rfl rfl rfl rfl rfl (Nat.le_succ _) rfl ?_
  dsimp only
  omega

theorem Books.acquireShadow (hs : Books 0 s) (request : AdmissionRequest F) (cost limit : ℤ) :
    Books 1 (s.acquireShadow request cost limit).1 := by
  unfold AdmissionController.acquireShadow
  cases s.shadowDecision cost limit with
  | wouldReject =>
    apply Books.admitEntry
    exact hs.keep fun h => h.frame rfl rfl rfl le_rfl
  | wouldAdmit =>
    apply Books.admitEntry
    exact hs.keep fun h => h.frame rfl rfl rfl le_rfl
  | wouldQueue =>
    have hadmitted : Books 1 ({ s with wouldQueueCount := s.wouldQueueCount + 1 }.admitEntry
        cost .queued).1 := by
      apply Books.admitEntry
      exact hs.keep fun h => h.frame rfl rfl rfl le_rfl
    dsimp only
    split
    · exact hadmitted.keep fun h => h.frame rfl rfl rfl le_rfl
    · exact hadmitted

theorem Books.afterEnqueue (hs : Books 0 s) (hwaiting : t.waiting = entry.bare ::ₘ s.waiting)
    (hsound : t.QueuesSound) (hopen : t.shutDown = false) (hfresh : entry.id ∉ s.issued)
    (hseq : entry.id ≤ t.leaseSeq) (hle : s.leaseSeq ≤ t.leaseSeq) (hcalls : t.calls = s.calls)
    (hissued : t.issued = s.issued) (hsettled : t.settled = s.settled)
    (hadmitted : t.admittedCount = s.admittedCount)
    (hrejected : t.rejectedCount = s.rejectedCount) : Books 1 (t.afterEnqueue entry) := by
  have hjoined : Books 1 { t with issued := t.issued ++ [entry.id] } :=
    hs.join hwaiting hsound hopen hfresh hseq hle hcalls (congrArg (· ++ [entry.id]) hissued)
      hsettled hadmitted hrejected
  apply hjoined.keep
  intro h
  have hfirst := h.dispatch
  unfold AdmissionController.afterEnqueue
  dsimp only
  apply Keeps.dispatch
  cases entry.payload.signal with
  | _ => exact hfirst.frame rfl rfl rfl le_rfl

/-- A lane is opened, or put in the place of one with the same entries. -/
theorem Keeps.putLane (h : Keeps s t) (key : String) (hsound : lane.queue.Sound)
    (hitems : lane.queue.items + tally laneItems (t.virtualLanes.delete key) =
      tally laneItems t.virtualLanes) :
    Keeps s { t with virtualLanes := t.virtualLanes.set key lane } := by
  refine h.rearrange ?_ (h.sound.set key hsound) rfl le_rfl
  unfold waiting
  rw [tally_set, laneItems_mk, hitems]

theorem deleteLane_get_none (h : s.virtualLanes.get key = none) (oldest : String) :
    (s.deleteLane oldest).virtualLanes.get key = none := by
  unfold deleteLane
  cases s.virtualLanes.get oldest with
  | none => exact h
  | some lane =>
    dsimp only
    rw [failAll_lanes, get_delete, h, ite_self]

/-- The lane of a tenant is used now, or it is opened and perhaps another one evicted. -/
theorem Keeps.getOrCreateLane (h : Keeps s t) (key : String) :
    Keeps s (t.getOrCreateLane key).1 ∧
      (t.getOrCreateLane key).1.virtualLanes.get key = some (t.getOrCreateLane key).2 := by
  have hopen : ∀ t : AdmissionController F, Keeps s t → t.virtualLanes.get key = none →
      Keeps s { t with virtualLanes := t.virtualLanes.set key {
        queue := .new t.config.maxQueueCount t.config.maxQueueCost, lastUsedMs := t.now } } := by
    intro t ht hnone
    apply ht.putLane key (Sound.new _ _)
    rw [tally_delete_none hnone]
    exact Multiset.zero_add _
  unfold AdmissionController.getOrCreateLane
  cases hget : t.virtualLanes.get key with
  | some lane =>
    have hsound : lane.queue.Sound := h.sound.lane hget
    have hitems := tally_get (f := laneItems) hget
    exact ⟨h.putLane key hsound hitems.symm, get_set_self _ _ _⟩
  | none =>
    dsimp only
    refine ⟨?_, get_set_self _ _ _⟩
    split
    · cases t.oldestLaneKey with
      | none => exact hopen t h hget
      | some oldest => exact hopen _ (h.deleteLane oldest) (deleteLane_get_none hget oldest)
    · exact hopen t h hget

/-- A refused entry leaves the queues as they were, an accepted one waits. -/
theorem enqueueLane_spec (h : Keeps s t) (entry : QueueEntry QueuedPayload) :
    ((t.enqueueLane entry).2 = false → Keeps s (t.enqueueLane entry).1) ∧
      ((t.enqueueLane entry).2 = true → ∃ u, Keeps s u ∧
        (t.enqueueLane entry).1.waiting = entry.bare ::ₘ u.waiting ∧
        (t.enqueueLane entry).1.QueuesSound ∧ ∃ lanes timer,
          (t.enqueueLane entry).1 = { u with virtualLanes := lanes, laneEvictionTimer := timer }) := by
  obtain ⟨hlane, hget⟩ := h.getOrCreateLane entry.tenantKey
  unfold enqueueLane
  rcases hcreate : t.getOrCreateLane entry.tenantKey with ⟨u, lane⟩
  rw [hcreate] at hlane hget
  dsimp only at hlane hget ⊢
  cases henq : lane.queue.enqueue entry with
  | none => exact ⟨fun _ => hlane.removeEmptyLane _, nofun⟩
  | some q =>
    refine ⟨nofun, fun _ => ⟨u, hlane, ?_, ?_, _, _, rfl⟩⟩
    · show waiting { u with
        virtualLanes := u.virtualLanes.set entry.tenantKey { lane with queue := q } } = _
      rw [waiting_set, waiting_get hget, items_enqueue henq, Multiset.cons_add]
    · exact hlane.sound.set entry.tenantKey ((hlane.sound.lane hget).enqueue henq)

theorem Keeps.mint (h : s.QueuesSound) : Keeps s { s with leaseSeq := s.leaseSeq + 1 } :=
  (Keeps.refl h).frame rfl rfl rfl (Nat.le_succ _)

theorem Books.fresh {n : ℕ} (hs : Books n s) : s.leaseSeq + 1 ∉ s.issued := by
  intro hid
  exact absurd (hs.issued_le _ hid) (Nat.not_succ_le_self _)

/-- The new entry waits in the shared queue. -/
theorem Books.joinShared (hs : Books 0 s) (hopen : s.shutDown = false)
    (hid : entry.id = s.leaseSeq + 1) (henq : s.queue.enqueue entry = some q) :
    Books 1 (AdmissionController.afterEnqueue
      { s with leaseSeq := s.leaseSeq + 1, queue := q } entry) := by
  refine hs.afterEnqueue ?_ ⟨hs.sound.1.enqueue henq, hs.sound.2⟩ hopen (hid ▸ hs.fresh)
    hid.le (Nat.le_succ _) rfl rfl rfl rfl rfl
  unfold AdmissionController.waiting
  rw [items_enqueue henq, Multiset.cons_add]

/-- The new entry waits in a lane. -/
theorem Books.joinLane {s t : AdmissionController F} (hs : Books 0 s) (hopen : s.shutDown = false)
    {entry : QueueEntry QueuedPayload} (hid : entry.id = s.leaseSeq + 1)
    (henq : enqueueLane { s with leaseSeq := s.leaseSeq + 1 } entry =
      (t, true)) : Books 1 (t.afterEnqueue entry) := by
  have hminted := Keeps.mint hs.sound
  have hspec := (enqueueLane_spec (Keeps.refl hminted.sound) entry).2
  rw [henq] at hspec
  obtain ⟨u, hu, hwaiting, hsound, lanes, timer, rfl⟩ := hspec rfl
  have hbooks := hs.keeps (hminted.trans hu)
  refine hbooks.afterEnqueue hwaiting hsound (hu.shutDown.trans hopen) ?_ (hid ▸ hu.seq)
    le_rfl rfl rfl rfl rfl rfl
  rw [hid, hu.issued]
  exact hs.fresh

theorem Books.refuseLane {s t : AdmissionController F} (hs : Books 0 s)
    {entry : QueueEntry QueuedPayload}
    (henq : enqueueLane { s with leaseSeq := s.leaseSeq + 1 } entry =
      (t, false)) : Books 0 t := by
  have hminted := Keeps.mint hs.sound
  have hspec := (enqueueLane_spec hminted entry).1
  rw [henq] at hspec
  exact hs.keeps (hspec rfl)

section

variable (hs : Books 0 s)
include hs

theorem Books.enqueue (hopen : s.shutDown = false) (request : AdmissionRequest F)
    (cost : ℤ) : Decided (s.enqueue request cost) := by
  unfold AdmissionController.enqueue
  dsimp only
  cases resolveMaxWait { s with leaseSeq := s.leaseSeq + 1 } request with
  | error message => exact hs.keeps (Keeps.mint hs.sound)
  | ok maxWait =>
    dsimp only
    split
    · split
      · next henq => exact (hs.refuseLane henq).reject _ _
      · next henq => exact hs.joinLane hopen rfl henq
    · split
      · exact (hs.keeps (Keeps.mint hs.sound)).reject _ _
      · next henq => exact hs.joinShared hopen rfl henq

theorem Books.acquireEnforce (hopen : s.shutDown = false)
    (request : AdmissionRequest F) (cost limit : ℤ) :
    Decided (s.acquireEnforce request cost limit) := by
  unfold AdmissionController.acquireEnforce
  split
  · split
    · exact hs.admitEntry cost .none
    · exact hs.reject _ _
  split
  · exact hs.admitEntry cost .none
  split
  · exact hs.enqueue hopen request cost
  · exact hs.reject _ _

theorem Books.acquireMode (hopen : s.shutDown = false)
    (request : AdmissionRequest F) : Decided (s.acquireMode request) := by
  unfold AdmissionController.acquireMode
  cases s.resolveCost request with
  | error message => exact hs
  | ok cost =>
    cases s.config.mode with
    | off =>
      refine hs.count rfl rfl rfl rfl rfl (Nat.le_succ _) rfl ?_
      show s.admittedCount + 1 + s.rejectedCount = _
      omega
    | shadow => exact hs.acquireShadow request cost s.adaptation.currentLimit
    | enforce => exact hs.acquireEnforce hopen request cost s.adaptation.currentLimit

theorem Books.acquire (request : AdmissionRequest F) : Decided (s.acquire request) := by
  rw [acquire_eq]
  split
  · exact hs.reject _ _
  split
  · exact hs.reject _ _
  next hopen _ =>
    obtain ⟨adaptation, -, heq⟩ := s.notePressure_eq request
    have hnoted : Books 0 { s with adaptation } :=
      hs.keep fun h => h.frame rfl rfl rfl le_rfl
    rw [heq]
    exact hnoted.acquireMode (Bool.eq_false_iff.2 hopen) request

theorem Books.call (request : AdmissionRequest F) : Books 0 (s.call request) := by
  have hdecided := hs.acquire request
  unfold AdmissionController.call
  rcases hacquire : s.acquire request with ⟨t, result⟩
  rw [hacquire] at hdecided
  cases result with
  | error message => exact hdecided
  | ok result =>
    have hbooks : Books 1 t := hdecided
    exact ⟨hbooks.sound, hbooks.total, hbooks.promises, hbooks.nodup, hbooks.issued_le, hbooks.idle⟩

omit hs in
theorem failAll_queue (message : String)
    (es : List (QueueEntry QueuedPayload)) (s : AdmissionController F) :
    (es.foldl (fun t entry => t.failQueued entry code message) s).queue = s.queue := by
  rw [failAll_evictsOnly code message es s]

/-- A shutdown rejects all that waits. -/
theorem Books.shutdown : Books 0 s.shutdown := by
  unfold AdmissionController.shutdown
  split
  · exact hs
  next hopen =>
    generalize hdown : ({ s with shutDown := true, windowTimer := none } : AdmissionController F) = d
    have hd : d.QueuesSound := by
      rw [← hdown]
      exact hs.sound
    dsimp only
    have hdrained : Owes d d.queue.drain.1 { d with queue := d.queue.drain.2 } := by
      refine (Keeps.refl hd).takeAll ?_ ⟨hd.1.drain.2.2, hd.2⟩ rfl le_rfl
      unfold waiting
      rw [map_bare_drain hd.1, hd.1.drain.1, hd.1.drain.2.1, Multiset.zero_add]
    have hshared := hdrained.failAll .shutdown "admission controller shut down"
    have hqueue := failAll_queue .shutdown "admission controller shut down" d.queue.drain.1
      { d with queue := d.queue.drain.2 }
    generalize d.queue.drain.1.foldl (fun t entry =>
      t.failQueued entry .shutdown "admission controller shut down")
      { d with queue := d.queue.drain.2 } = u at hshared hqueue ⊢
    have hempty : waiting { u with virtualLanes := .empty } = 0 := by
      unfold waiting
      rw [hqueue, hd.1.drain.2.1]
      rfl
    have hlanes := drain_lanes hshared.sound.2
    have htaken : Owes d (u.virtualLanes.values.flatMap fun lane => lane.queue.drain.1)
        { u with virtualLanes := .empty } := by
      refine hshared.takeAll ?_ ⟨hshared.sound.1, nofun⟩ rfl le_rfl
      rw [hlanes.2, hempty, hlanes.1, Multiset.add_zero]
      unfold waiting
      rw [hqueue, hd.1.drain.2.1, Multiset.zero_add]
    have hdone := htaken.failAll .shutdown "admission controller shut down"
    rw [← failAll_setLanes] at hdone
    generalize hfinal : ({ (u.virtualLanes.values.flatMap fun lane => lane.queue.drain.1).foldl
      (fun t entry => t.failQueued entry .shutdown "admission controller shut down") u with
      virtualLanes := .empty } : AdmissionController F) = v at hdone
    have hidle : v.waiting = 0 := by
      rw [← hempty, ← hfinal]
      unfold waiting
      dsimp only
      rw [failAll_queue]
    have hpromises := hdone.promises
    rw [map_nil, Multiset.coe_nil, Multiset.add_zero] at hpromises
    subst hdown
    refine ⟨hdone.sound, ?_, ?_, ?_, ?_, fun _ => hidle⟩
    · show v.total = v.calls + 0
      rw [hdone.calls]
      exact hdone.total.trans hs.total
    · show v.promises = ↑v.issued
      rw [hpromises, hdone.issued]
      exact hs.promises
    · show v.issued.Nodup
      rw [hdone.issued]
      exact hs.nodup
    · intro id hid
      have hissued : id ∈ v.issued := hid
      rw [hdone.issued] at hissued
      exact (hs.issued_le id hissued).trans hdone.seq

omit hs in
theorem Books.new (config : ValidatedConfig F) (now : ℤ) :
    Books 0 (AdmissionController.new config now) := by
  unfold AdmissionController.new
  generalize hstart : (AdmissionController.mk config _ _ _ _ _ _ _ _ _ _ _ _ _ _ _ _ _ _ _ _ _ _
    _ _ _ _) = start
  have hbooks : Books 0 start := by
    rw [← hstart]
    exact ⟨⟨Sound.new _ _, nofun⟩, rfl, rfl, nodup_nil, nofun, nofun⟩
  exact hbooks.keep Keeps.armWindowTimer

/-- Every event keeps the books. -/
theorem Books.step {e : AdmissionEvent F} (h : s.step e = some t) : Books 0 t := by
  cases e with
  | clock now =>
    cases h
    exact hs.keep fun hk => hk.frame rfl rfl rfl le_rfl
  | acquire request =>
    cases h
    exact hs.call request
  | release lease outcome info =>
    cases h
    exact hs.keep fun hk => hk.releaseLease lease outcome info
  | observePressure pressure =>
    cases h
    exact hs.keep fun hk => hk.observePressure pressure
  | tick =>
    cases h
    exact hs.keep Keeps.tick
  | snapshot =>
    cases h
    exact hs.keep Keeps.sampleIntegral
  | updateConfig config =>
    cases h
    unfold updateConfig
    cases validateConfig config with
    | error message => exact hs
    | ok next => exact hs.keep fun hk => hk.reconfigure next
  | shutdown =>
    cases h
    exact hs.shutdown
  | abort signal =>
    cases h
    exact hs.keep fun hk => hk.abort signal
  | deadline entry =>
    obtain ⟨-, -, -, rfl⟩ := step_deadline h
    apply hs.keep
    intro hk
    apply Keeps.expireEntry
    exact hk.frame rfl rfl rfl le_rfl
  | windowTimer =>
    obtain rfl := step_windowTimer h
    exact hs.keep fun hk => hk.tick.armWindowTimer
  | laneTimer =>
    obtain rfl := step_laneTimer h
    exact hs.keep Keeps.evictIdleLanes

end

theorem Reachable.books (h : s.Reachable) : Books 0 s := by
  obtain ⟨config, now, es, hrun⟩ := h
  exact Trace.exec_invariant (fun s e t hs hstep => hs.step hstep) (Books.new config now) hrun

/-! ## Every request is settled once -/

/-- The ids of the entries of a queue. -/
def queueIds {τ : Type} (q : FairCostQueue τ) : List ℕ :=
  (q.buckets.flatMap Bucket.entries).map QueueEntry.id

/-- The ids of the queued entries. -/
def queuedIds (s : AdmissionController F) : List ℕ :=
  queueIds s.queue ++ s.virtualLanes.values.flatMap fun lane => queueIds lane.queue

theorem map_id_items {τ : Type} (q : FairCostQueue τ) :
    q.items.map QueueEntry.id = ↑(queueIds q) := by
  unfold FairCostQueue.items itemsOf queueIds
  rw [Multiset.map_coe, map_map]
  rfl

theorem map_id_waiting (s : AdmissionController F) :
    s.waiting.map QueueEntry.id = ↑s.queuedIds := by
  unfold waiting queuedIds tally laneItems values
  rw [Multiset.map_add, map_id_items, ← Multiset.coe_add]
  congr 1
  induction s.virtualLanes.entries with
  | nil => rfl
  | cons p l ih =>
    simp only [map_cons, sum_cons, flatMap_cons]
    rw [Multiset.map_add, map_id_items, ih, Multiset.coe_add]

theorem card_waiting (h : s.QueuesSound) :
    s.waiting.card =
      s.queue.count + (s.virtualLanes.values.map fun lane => lane.queue.count).sum := by
  have hlanes := h.2
  unfold waiting tally laneItems values
  rw [Multiset.card_add, ← h.1.count]
  congr 1
  generalize s.virtualLanes.entries = l at hlanes ⊢
  induction l with
  | nil => rfl
  | cons p l ih =>
    have hp := hlanes p mem_cons_self
    simp only [map_cons, sum_cons, Multiset.card_add]
    rw [← hp.count, ih fun p hp => hlanes p (mem_cons_of_mem _ hp)]

section

variable (s : AdmissionController F)

/-- A service hands out no promise. -/
theorem issued_serveEntry (entry : QueueEntry QueuedPayload) :
    (s.serveEntry entry).1.issued = s.issued := by
  rcases s.serveEntry_cases entry with hserve | ⟨code, message, hserve⟩
  · obtain ⟨integral, time, heq⟩ := s.admitQueued_eq entry
    rw [hserve, heq]
  · rw [hserve]
    rfl

theorem issued_removeEmptyLane (key : String) : (s.removeEmptyLane key).issued = s.issued := by
  rcases s.removeEmptyLane_cases key with heq | ⟨lane, -, -, heq⟩
  · rw [heq]
  · rw [heq]

theorem issued_dispatch : s.dispatch.issued = s.issued := by
  apply dispatch_induct (P := fun t => t.issued = s.issued) ?_ ?_ ?_ rfl
  · intro t entry q ht _ _
    exact (issued_serveEntry _ entry).trans ht
  · intro t key lane entry q ht _ _ _
    exact (issued_serveEntry _ entry).trans ht
  · intro t key ht
    exact (issued_removeEmptyLane t key).trans ht

theorem issued_afterEnqueue (entry : QueueEntry QueuedPayload) :
    (s.afterEnqueue entry).issued = s.issued ++ [entry.id] := by
  unfold afterEnqueue
  dsimp only
  rw [issued_dispatch]
  cases entry.payload.signal with
  | _ => exact issued_dispatch _

end

/-- The result is no queued promise, or a promise that is on the list now. -/
def HandsOut (s : AdmissionController F)
    (r : AdmissionController F × Except String AdmissionAcquireResult) : Prop :=
  ∀ id, r.2 = .ok (.queued id) → r.1.issued = s.issued ++ [id]

section

variable (hs : s.QueuesSound)
include hs

section

variable (request : AdmissionRequest F)

theorem handsOut_enqueue (cost : ℤ) : HandsOut s (s.enqueue request cost) := by
  unfold enqueue
  dsimp only
  cases resolveMaxWait { s with leaseSeq := s.leaseSeq + 1 } request with
  | error message => exact nofun
  | ok maxWait =>
    dsimp only
    split
    · split
      · exact nofun
      · next t henq =>
        have hspec := (enqueueLane_spec (Keeps.refl (Keeps.mint hs).sound) _).2
          (congrArg Prod.snd henq)
        rw [henq] at hspec
        obtain ⟨u, hu, -, -, lanes, timer, rfl⟩ := hspec
        intro id hid
        obtain rfl := AdmissionAcquireResult.queued.inj (Except.ok.inj hid)
        refine (issued_afterEnqueue _ _).trans ?_
        show u.issued ++ _ = _
        rw [hu.issued]
    · split
      · exact nofun
      · intro id hid
        obtain rfl := AdmissionAcquireResult.queued.inj (Except.ok.inj hid)
        exact issued_afterEnqueue _ _

theorem handsOut_acquireEnforce
    (cost limit : ℤ) : HandsOut s (s.acquireEnforce request cost limit) := by
  unfold acquireEnforce
  split
  · split
    · intro id hid
      cases hid
    · intro id hid
      cases hid
  split
  · intro id hid
    cases hid
  split
  · exact handsOut_enqueue hs request cost
  · intro id hid
    cases hid

theorem handsOut_acquireMode : HandsOut s (s.acquireMode request) := by
  unfold acquireMode
  cases s.resolveCost request with
  | error message =>
    intro id hid
    cases hid
  | ok cost =>
    cases s.config.mode with
    | off =>
      intro id hid
      cases hid
    | shadow =>
      intro id hid
      cases hid
    | enforce => exact handsOut_acquireEnforce hs request cost s.adaptation.currentLimit

theorem handsOut_acquire : HandsOut s (s.acquire request) := by
  rw [acquire_eq]
  split
  · intro id hid
    cases hid
  split
  · intro id hid
    cases hid
  obtain ⟨adaptation, -, heq⟩ := s.notePressure_eq request
  rw [heq]
  exact handsOut_acquireMode (s := { s with adaptation }) hs request

end

theorem handsOut_call {request : AdmissionRequest F} {id : ℕ}
    (h : (s.acquire request).2 = .ok (.queued id)) :
    (s.call request).issued = s.issued ++ [id] := by
  have hissued := handsOut_acquire hs request id h
  unfold call
  rcases hacquire : s.acquire request with ⟨t, result⟩
  rw [hacquire] at hissued
  cases result with
  | _ => exact hissued

end

/-- In every state of every run: each call of `acquire` that returned was admitted, rejected or is
queued; a promise handed out is queued and not settled, or settled once and not queued, and
nothing else is settled; the promise a call returns is handed out; nothing is queued after a
shutdown. -/
theorem settles_once {s : AdmissionController F} (h : s.Reachable) :
    s.admittedCount + s.rejectedCount + s.queue.count +
        (s.virtualLanes.values.map fun lane => lane.queue.count).sum = s.calls ∧
      (∀ id ∈ s.issued,
        s.queuedIds.count id = 1 ∧ (s.settled.map Prod.fst).count id = 0 ∨
        s.queuedIds.count id = 0 ∧ (s.settled.map Prod.fst).count id = 1) ∧
      (∀ id, id ∈ s.queuedIds ∨ id ∈ s.settled.map Prod.fst → id ∈ s.issued) ∧
      (∀ request id, (s.acquire request).2 = .ok (.queued id) →
        (s.call request).issued = s.issued ++ [id]) ∧
      (s.shutDown = true → s.queue.count = 0 ∧ ∀ lane ∈ s.virtualLanes.values,
        lane.queue.count = 0) := by
  have hs := h.books
  have hcard := card_waiting hs.sound
  have hpromises : ((s.settled.map Prod.fst ++ s.queuedIds : List ℕ) : Multiset ℕ) = ↑s.issued := by
    rw [← hs.promises, ← Multiset.coe_add, ← map_id_waiting]
    rfl
  have hperm := Multiset.coe_eq_coe.1 hpromises
  refine ⟨?_, ?_, ?_, fun request id hid => handsOut_call hs.sound hid, ?_⟩
  · have htotal := hs.total
    unfold total at htotal
    omega
  · intro id hid
    have hcount := hperm.count_eq id
    rw [count_append, count_eq_one_of_mem hs.nodup hid] at hcount
    omega
  · intro id hid
    rw [← hperm.mem_iff, mem_append]
    exact hid.symm
  · intro hshut
    rw [hs.idle hshut, Multiset.card_zero] at hcard
    have hlanes : (s.virtualLanes.values.map fun lane => lane.queue.count).sum = 0 := by omega
    refine ⟨by omega, ?_⟩
    intro lane hlane
    exact sum_eq_zero_iff.1 hlanes _ (mem_map.2 ⟨lane, hlane, rfl⟩)

theorem fiveSeconds_quantum : 0 < (5000 : ℤ) ∧ 5000 ≤ maxAdmissionWindowMs := by decide

/-- A small configuration over the rationals, with limits from one to ten. -/
def smallConfig (mode : AdmissionMode) (virtualLanes : Bool) : ValidatedConfig ℚ where
  mode
  minLimit := 1
  maxLimit := 10
  initialLimit := 10
  maxQueueCount := 10
  maxQueueCost := 100
  defaultMaxWaitMs := ⟨5000, fiveSeconds_quantum⟩
  windowMs := 1000
  adaptation := {
    minLimit := 1
    maxLimit := 10
    windowMs := 1000
    shortLatencyAlpha := 1 / 2
    longLatencyAlpha := 1 / 10
    increaseStep := 1
    decreaseFactor := ⟨4 / 5, by decide +kernel⟩
    criticalDecreaseFactor := ⟨1 / 2, by decide +kernel⟩
    highUtilizationThreshold := 7 / 10
    lowUtilizationThreshold := 3 / 10
    latencyGradientThreshold := 1 / 4
    maxIncreasePerWindow := 1 }
  costConfig := defaultAdmissionCostConfig
  virtualLanes
  minLimit_pos := by decide
  minLimit_le := by decide
  maxLimit_le := by decide
  adaptation_minLimit := rfl
  adaptation_maxLimit := rfl

/-- The first request takes the limit, the second one waits and is rejected by the shutdown. -/
theorem settles_once_shutdown :
    ∃ s : AdmissionController ℚ, s.Reachable ∧ s.calls = 2 ∧ s.settled.length = 1 ∧
      (s.queuedIds.count 2 = 1 ∧ (s.settled.map Prod.fst).count 2 = 0 ∨
        s.queuedIds.count 2 = 0 ∧ (s.settled.map Prod.fst).count 2 = 1) := by
  obtain ⟨s, hrun, hcalls, hissued, hsettled⟩ : ∃ s : AdmissionController ℚ,
      Trace.exec step (new (smallConfig .enforce false) 0)
        [.acquire { cost := some 10 }, .acquire { cost := some 5 }, .shutdown] = some s ∧
      s.calls = 2 ∧ s.issued = [2] ∧ s.settled.length = 1 := by
    refine ⟨_, rfl, ?_, ?_, ?_⟩ <;> decide +kernel
  have hreachable : s.Reachable := ⟨_, _, _, hrun⟩
  have hissue := (settles_once hreachable).2.1
  rw [hissued] at hissue
  exact ⟨s, hreachable, hcalls, hsettled, hissue 2 mem_cons_self⟩

end OmniRoute.AdmissionController
