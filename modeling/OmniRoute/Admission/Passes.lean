import OmniRoute.Admission.Settlement

/-!
# Operations that admit what fits

A dispatch, an expiry, an abort, an arrival and a shutdown are made of two elementary changes: one
that leaves the adaptation, the leases and the ledgers alone, and the admission of a request that
fits, or of one that may go alone. What the two preserve, these operations preserve.
-/

namespace OmniRoute.AdmissionController

open FairCostQueue List

variable {F : Type} [JsNumber F]

theorem resolveCost_mem {s : AdmissionController F} {request : AdmissionRequest F} {cost : ℤ}
    (h : s.resolveCost request = .ok cost) : 0 < cost ∧ cost ≤ maxAdmissionCostOrLimit := by
  have hmax := s.config.maxRequestCost.2
  unfold resolveCost at h
  split at h
  · obtain ⟨hpos, hle⟩ := normalizeRequestCost_mem hmax.1 h
    exact ⟨hpos, hle.trans hmax.2⟩
  · next features _ _ =>
    obtain rfl := Except.ok.inj h
    obtain ⟨hpos, hle⟩ := estimateAdmissionCost_mem features s.config.costConfig
    exact ⟨hpos, hle.trans hmax.2⟩
  · obtain rfl := Except.ok.inj h
    decide

theorem Sound.dequeue_pos {τ : Type} {q q' : FairCostQueue τ} (hq : q.Sound) {maxCost : ℤ}
    {entry : QueueEntry τ} (h : q.dequeue maxCost = some (entry, q')) : 0 < entry.cost := by
  have hitems := (items_dequeue h).1
  exact (hq.costs entry (by rw [hitems]; exact Multiset.mem_cons_self _ _)).1

/-- The states differ in what is queued and settled only, and ids may have been minted. -/
def QueuesOnly (s t : AdmissionController F) : Prop :=
  s.leaseSeq ≤ t.leaseSeq ∧ t = { s with
    queue := t.queue
    virtualLanes := t.virtualLanes
    laneEvictionTimer := t.laneEvictionTimer
    windowTimer := t.windowTimer
    shutDown := t.shutDown
    admittedCount := t.admittedCount
    rejectedCount := t.rejectedCount
    leaseSeq := t.leaseSeq
    aborted := t.aborted
    timers := t.timers
    listeners := t.listeners
    calls := t.calls
    issued := t.issued
    settled := t.settled }

/-- An elementary change. Costs are positive if the queues are sound, which is `p`. -/
inductive Elementary (p : Prop) (s : AdmissionController F) : AdmissionController F → Prop
  | queues {t : AdmissionController F} (h : QueuesOnly s t) : Elementary p s t
  | admits {cost : ℤ} (hpos : p → 0 < cost) (hfits : cost ≤ s.available ∨
      s.adaptation.currentLimit < cost ∧ s.shouldAdmitSolo cost = true) :
      Elementary p s (s.admitEntry cost .none).1

abbrev Passes (p : Prop) (s t : AdmissionController F) : Prop :=
  Relation.ReflTransGen (Elementary p) s t

variable {p : Prop} {s t u : AdmissionController F} {entry : QueueEntry QueuedPayload}

section

variable (h : Passes p s t)
include h

theorem Passes.queues (hu : QueuesOnly t u) : Passes p s u := h.tail (.queues hu)

theorem Passes.evictsOnly (hu : EvictsOnly t u) : Passes p s u := by
  refine h.queues ⟨le_of_eq ?_, ?_⟩
  · rw [hu]
  · rw [hu]

theorem Passes.failQueued (code : AdmissionRejectCode) (message : String) :
    Passes p s (t.failQueued entry code message) :=
  h.evictsOnly (failAll_evictsOnly code message [entry] t)

theorem Passes.serve (hpos : p → 0 < entry.cost)
    (hfits : entry.cost ≤ t.available) : Passes p s (t.serveEntry entry).1 := by
  rcases t.serveEntry_cases entry with heq | ⟨code, message, heq⟩
  · have hcleared : Passes p s ((t.clearEntryTimer entry).detachAbort entry) :=
      h.queues ⟨le_rfl, rfl⟩
    rw [heq]
    exact (hcleared.tail (.admits hpos (Or.inl hfits))).tail (.queues ⟨le_rfl, rfl⟩)
  · rw [heq]
    exact h.failQueued code message

theorem Passes.takeShared {q : FairCostQueue QueuedPayload}
    (hdeq : t.queue.dequeue t.available = some (entry, q)) (hs : p → t.QueuesSound) :
    Passes p s ({ t with queue := q }.serveEntry entry).1 := by
  have hqueue : Passes p s { t with queue := q } := h.queues ⟨le_rfl, rfl⟩
  exact hqueue.serve (fun hp => Sound.dequeue_pos (hs hp).1 hdeq) (items_dequeue hdeq).2

theorem Passes.takeLane {key : String} {lane : AdmissionLane}
    {q : FairCostQueue QueuedPayload} (hget : t.virtualLanes.get key = some lane)
    (hdeq : lane.queue.dequeue t.available = some (entry, q)) (hs : p → t.QueuesSound) :
    Passes p s ((t.putLane key lane q).serveEntry entry).1 := by
  have hqueue : Passes p s (t.putLane key lane q) := h.queues ⟨le_rfl, rfl⟩
  exact hqueue.serve (fun hp => Sound.dequeue_pos ((hs hp).lane hget) hdeq) (items_dequeue hdeq).2

theorem Passes.dispatch (hs : p → t.QueuesSound) : Passes p s t.dispatch := by
  refine (dispatch_induct (P := fun u => (p → Keeps t u) ∧ Passes p s u) ?_ ?_ ?_
    ⟨fun hp => Keeps.refl (hs hp), h⟩).2
  · intro u entry q ⟨hkeeps, hu⟩ _ hdeq
    exact ⟨fun hp => ((hkeeps hp).takeShared hdeq).serve,
      hu.takeShared hdeq fun hp => (hkeeps hp).sound⟩
  · intro u key lane entry q ⟨hkeeps, hu⟩ _ hget hdeq
    exact ⟨fun hp => ((hkeeps hp).dequeueLane hget hdeq).serve,
      hu.takeLane hget hdeq fun hp => (hkeeps hp).sound⟩
  · intro u key ⟨hkeeps, hu⟩
    exact ⟨fun hp => (hkeeps hp).removeEmptyLane key, hu.evictsOnly (removeEmptyLane_evictsOnly u key)⟩

theorem Passes.expireEntry (hs : t.QueuesSound) (id : ℕ)
    (code : AdmissionRejectCode) (message : String) :
    Passes p s (t.expireEntry id code message) := by
  rcases expireEntry_cases hs id code message with heq | ⟨entry, queue, virtualLanes, howes, heq⟩
  · rw [heq]
    exact h
  · rw [heq]
    have hqueue : Passes p s { t with queue, virtualLanes } := h.queues ⟨le_rfl, rfl⟩
    exact (hqueue.failQueued code message).dispatch fun _ => (howes.fail code message).sound

theorem Passes.onAbort (hs : t.QueuesSound) (signal entry : ℕ) :
    Passes p s (t.onAbort signal entry) := by
  unfold AdmissionController.onAbort
  split
  · refine Passes.expireEntry ?_ ?_ _ _ _
    · exact h.queues ⟨le_rfl, rfl⟩
    · exact hs
  · exact h

theorem Passes.abort (hs : t.QueuesSound) (signal : ℕ) : Passes p s (t.abort signal) := by
  unfold AdmissionController.abort
  split
  · exact h
  dsimp only
  have hstart : Passes p s { t with aborted := signal :: t.aborted } := h.queues ⟨le_rfl, rfl⟩
  have hsound : QueuesSound { t with aborted := signal :: t.aborted } := hs
  generalize (t.listeners.filter fun x => x.2 = signal).map Prod.fst = entries
  generalize ({ t with aborted := signal :: t.aborted } : AdmissionController F) = u
    at hstart hsound ⊢
  induction entries generalizing u with
  | nil => exact hstart
  | cons entry entries ih =>
    exact ih _ (hstart.onAbort hsound signal entry) ((Keeps.refl hsound).onAbort signal entry).sound

theorem Passes.afterEnqueue (hs : p → t.QueuesSound) : Passes p s (t.afterEnqueue entry) := by
  have hstart : Passes p s { t with issued := t.issued ++ [entry.id] } := h.queues ⟨le_rfl, rfl⟩
  have hfirst := hstart.dispatch hs
  have hsound : p → QueuesSound (AdmissionController.dispatch
      { t with issued := t.issued ++ [entry.id] }) := fun hp =>
    Keeps.dispatch (Keeps.refl (s := { t with issued := t.issued ++ [entry.id] }) (hs hp)) |>.sound
  unfold AdmissionController.afterEnqueue
  dsimp only
  refine Passes.dispatch ?_ ?_
  · cases entry.payload.signal with
    | _ => exact hfirst.queues ⟨le_rfl, rfl⟩
  · cases entry.payload.signal with
    | _ => exact hsound

theorem Passes.reject (code : AdmissionRejectCode) (message : String) :
    Passes p s (t.reject code message).1 := h.queues ⟨le_rfl, rfl⟩

theorem Passes.enqueue (hs : p → t.QueuesSound) (request : AdmissionRequest F)
    (cost : ℤ) : Passes p s (t.enqueue request cost).1 := by
  have hminted : Passes p s { t with leaseSeq := t.leaseSeq + 1 } := h.queues ⟨Nat.le_succ _, rfl⟩
  unfold AdmissionController.enqueue
  dsimp only
  cases AdmissionController.resolveMaxWait { t with leaseSeq := t.leaseSeq + 1 } request with
  | error message => exact hminted
  | ok maxWait =>
    dsimp only
    split
    · split
      · next henq => exact (hminted.evictsOnly (enqueueLane_evictsOnly henq)).reject _ _
      · next u henq =>
        refine (hminted.evictsOnly (enqueueLane_evictsOnly henq)).afterEnqueue fun hp => ?_
        have hspec := (enqueueLane_spec (Keeps.refl (Keeps.mint (hs hp)).sound) _).2
          (congrArg Prod.snd henq)
        rw [henq] at hspec
        obtain ⟨-, -, -, hsound, -⟩ := hspec
        exact hsound
    · split
      · exact hminted.reject _ _
      · next q henq =>
        apply Passes.afterEnqueue
        · exact hminted.queues ⟨le_rfl, rfl⟩
        · exact fun hp => ⟨(hs hp).1.enqueue henq, (hs hp).2⟩

theorem Passes.acquireEnforce (hs : p → t.QueuesSound)
    (request : AdmissionRequest F) {cost : ℤ} (hpos : 0 < cost) :
    Passes p s (t.acquireEnforce request cost t.adaptation.currentLimit).1 := by
  unfold AdmissionController.acquireEnforce
  split
  · next hover =>
    split
    · next hsolo => exact h.tail (.admits (fun _ => hpos) (Or.inr ⟨hover, hsolo⟩))
    · exact h.reject _ _
  split
  · next hfits =>
    refine h.tail (.admits (fun _ => hpos) (Or.inl ?_))
    unfold available
    omega
  split
  · exact h.enqueue hs request cost
  · exact h.reject _ _

theorem Passes.shutdown : Passes p s t.shutdown := by
  unfold AdmissionController.shutdown
  split
  · exact h
  dsimp only
  have hdown : Passes p s { t with shutDown := true, windowTimer := none, queue := t.queue.drain.2 } :=
    h.queues ⟨le_rfl, rfl⟩
  have hshared := hdown.evictsOnly
    (failAll_evictsOnly .shutdown "admission controller shut down" t.queue.drain.1 _)
  exact (hshared.evictsOnly (failAll_evictsOnly .shutdown _ _ _)).queues ⟨le_rfl, rfl⟩

end

end OmniRoute.AdmissionController
