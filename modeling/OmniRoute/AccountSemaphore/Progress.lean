import OmniRoute.AccountSemaphore.Order

/-!
# Progress of the account semaphore

A request that can be admitted waits until the next drain. Most operations end with one, but a
call that is bypassed, aborted, refused or admitted at once does not, nor does an operation on a
key without a gate or a second call of a release function. Two things can make a request ready
in between: a block runs out, for which `markBlocked` arms no timer, and a refused call has
raised a limit on its way.

**Main result (`order_and_progress`).** In every run the queues are the waiting list filtered by
key, the oldest request leads all its queues, and requests that share a key are admitted in
arrival order. No operation leaves a request behind that could be admitted, exactly when no
operation returns before the drain while there is one.
-/

namespace OmniRoute

open Numbered List

namespace AccountSemaphore

variable {calls : ℕ} {s s' : AccountSemaphore}

/-! ## Being stuck -/

theorem canAcquire_congr {request : AcquireRequest} (hn : s'.now = s.now)
    (hg : ∀ key ∈ request.keys, s'.gates.get key = s.gates.get key) :
    s'.canAcquire request = s.canAcquire request := by
  unfold canAcquire
  rw [hn, Bool.eq_iff_iff, all_eq_true, all_eq_true]
  exact forall₂_congr fun key hk => by rw [hg key hk]

theorem Stuck.of_eq (h : s.Stuck) (hn : s'.now = s.now) (hg : s'.gates = s.gates)
    (hr : s'.queuedRequests = s.queuedRequests) : s'.Stuck := fun request hmem =>
  (canAcquire_congr hn fun _ _ => by rw [hg]).trans (h request (hr ▸ hmem))

theorem Stuck.cleanupGateIfIdle (h : s.Stuck) (hs : s.Ordered calls) (key : String) :
    (s.cleanupGateIfIdle key).Stuck := by
  rcases cleanupGateIfIdle_cases key s with heq | ⟨gate, timers, hg, -, hq, heq⟩
  · rw [heq]
    exact h
  · rw [heq]
    intro request hmem
    have hmem : request ∈ s.queuedRequests := hmem
    rw [← h request hmem]
    refine canAcquire_congr rfl fun key' hk => OrdMap.get_delete_ne _ ?_
    rintro rfl
    obtain ⟨gate', hg', hc⟩ := hs.gate_of_mem hmem hk
    obtain rfl := Option.some.inj (hg.symm.trans hg')
    rw [hq] at hc
    cases hc

/-! ## Operations that return early -/

/-- Some queued request can be admitted. -/
def HasReady (s : AccountSemaphore) : Prop :=
  ∃ request ∈ s.queuedRequests, s.canAcquire request = true

theorem stuck_iff : s.Stuck ↔ ¬ s.HasReady := by
  simp [Stuck, HasReady]

/-- The call is bypassed, or its signal is aborted, and no limit is written. -/
def WritesNoLimit (s : AccountSemaphore) (requirements : List SemaphoreRequirement)
    (options : AcquireManyOptions) : Prop :=
  (enabledLimits requirements).size = 0 ∨
    s.aborted.any (fun signal => some signal.1 = options.signal) = true

/-- The call has to wait. -/
def MustWait (s : AccountSemaphore) (requirements : List SemaphoreRequirement)
    (options : AcquireManyOptions) : Prop :=
  (s.limitsWritten requirements options).1 = none ∧
    (s.limitsWritten requirements options).2.fastPath
      (sortedKeys (enabledLimits requirements)) = false

/-- The operation returns before the drain, and a queued request is ready. -/
def ReturnsEarly (s : AccountSemaphore) : Event → Prop
  | .acquireMany requirements options =>
      (s.WritesNoLimit requirements options ∧ s.HasReady) ∨
        (¬ s.WritesNoLimit requirements options ∧ ¬ s.MustWait requirements options ∧
          (s.limitsWritten requirements options).2.HasReady)
  | .release call => s.permits.find? (·.call = call) = none ∧ s.HasReady
  | .unblock key => s.gates.get key = none ∧ s.HasReady
  | .reset key => s.gates.get key = none ∧ s.HasReady
  | _ => False

/-- The event is an operation on the semaphore; an aborted signal is one if a request listens. -/
def IsOperation (s : AccountSemaphore) : Event → Prop
  | .abort signal _ => ∃ request ∈ s.queuedRequests, request.signal = some signal
  | .markBlocked _ _ => False
  | .cleanup _ => False
  | .advance _ => False
  | _ => True

/-- When an operation returns, no queued request can be admitted. -/
def Drains (s : AccountSemaphore) (e : Event) : Prop :=
  ∀ s', s.step e = some s' → s.IsOperation e → s'.Stuck

/-! ## One operation -/

theorem acquireManyAs_stuck_iff (hs : s.Ordered calls) (requirements : List SemaphoreRequirement)
    (options : AcquireManyOptions) :
    (s.acquireManyAs calls requirements options).Stuck ↔
      ¬ s.ReturnsEarly (.acquireMany requirements options) := by
  have hrel := ensureGates_spec (enabledLimits requirements) options.maxQueueSize
    (sortedKeys (enabledLimits requirements)) s
  have hw : (s.limitsWritten requirements options).2.Ordered calls := hrel.ordered hs
  have hno (hsize : (enabledLimits requirements).size ≠ 0)
      (hnone : s.aborted.find? (fun signal => some signal.1 = options.signal) = none) :
      ¬s.WritesNoLimit requirements options := by
    rintro (h | h)
    · exact hsize h
    · obtain ⟨signal, hmem, hsig⟩ := any_eq_true.1 h
      exact find?_eq_none.1 hnone signal hmem hsig
  have hcase := acquireManyAs_cases calls requirements options s
  generalize s.acquireManyAs calls requirements options = t at hcase ⊢
  cases hcase with
  | bypassed hsize =>
    have hno : s.WritesNoLimit requirements options := Or.inl hsize
    simp only [ReturnsEarly, hno, true_and, not_true, false_and, or_false]
    exact stuck_iff
  | aborted signal reason hsize hab =>
    have hno : s.WritesNoLimit requirements options :=
      Or.inr (any_eq_true.2 ⟨_, mem_of_find?_eq_some hab,
        find?_some (p := fun s : ℕ × AbortReason => some s.1 = options.signal) hab⟩)
    simp only [ReturnsEarly, hno, true_and, not_true, false_and, or_false]
    exact stuck_iff
  | full key error hsize hab hens =>
    have hwait : ¬ s.MustWait requirements options := fun h => by simp [h.1] at hens
    simp only [ReturnsEarly, hno hsize hab, hwait, false_and, not_false_eq_true, true_and, false_or]
    exact stuck_iff
  | fast hsize hab hens hfast =>
    have hwait : ¬ s.MustWait requirements options := fun h => by simp [h.2] at hfast
    simp only [ReturnsEarly, hno hsize hab, hwait, false_and, not_false_eq_true, true_and, false_or]
    rw [← stuck_iff]
    -- Nobody who waits needs a key of this call, so taking its slots changes nothing for them.
    have hsame : ∀ request ∈ (s.limitsWritten requirements options).2.queuedRequests,
        (((s.limitsWritten requirements options).2.takeSlots
          (sortedKeys (enabledLimits requirements))).resolve calls
            (sortedKeys (enabledLimits requirements))).canAcquire request =
          (s.limitsWritten requirements options).2.canAcquire request := by
      intro request hmem
      rw [takeSlots_eq]
      refine canAcquire_congr rfl fun key hk => ?_
      show (OrdMap.modifyAll _ _ _).get key = _
      rw [OrdMap.get_modifyAll _ (nodup_sortedKeys _), if_neg]
      exact fun hmem' => (fastPath_spec hw hfast hmem').2.2 request hmem hk
    have hqueued : (((s.limitsWritten requirements options).2.takeSlots
        (sortedKeys (enabledLimits requirements))).resolve calls
          (sortedKeys (enabledLimits requirements))).queuedRequests =
        (s.limitsWritten requirements options).2.queuedRequests := by
      rw [takeSlots_eq]
      rfl
    unfold Stuck
    rw [hqueued]
    exact forall₂_congr fun request hmem => by rw [hsame request hmem]
  | queued hsize hab hens hslow =>
    have hwait : s.MustWait requirements options := ⟨hens, hslow⟩
    simp only [ReturnsEarly, hno hsize hab, hwait, false_and, not_true, and_false, or_self, not_false_eq_true,
      iff_true]
    exact drainQueues_stuck _

/-- Once a request of the signal is queued, the last drain of an abort reaches the fixpoint. -/
theorem abort_stuck {signal : ℕ} {reason : AbortReason}
    (h : ∃ request ∈ s.queuedRequests, request.signal = some signal) :
    (s.abort signal reason).Stuck := by
  have hkeep : ∀ (requests : List AcquireRequest) (t : AccountSemaphore), t.Stuck →
      (requests.foldl (abortRequest (makeAbortError reason)) t).Stuck := by
    intro requests
    induction requests with
    | nil => exact fun t ht => ht
    | cons request requests ih =>
      refine fun t ht => ih _ ?_
      unfold abortRequest
      split
      · exact drainQueues_stuck _
      · exact ht
  obtain ⟨request, hmem, hsig⟩ := h
  have hfirst : ∃ r rs, s.queuedRequests.filter (·.signal = some signal) = r :: rs := by
    refine exists_cons_of_ne_nil (ne_nil_of_mem (a := request) ?_)
    exact mem_filter.2 ⟨hmem, by simpa using hsig⟩
  obtain ⟨r, rs, hrs⟩ := hfirst
  have hr : r ∈ s.queuedRequests :=
    mem_of_mem_filter (hrs ▸ mem_cons_self : r ∈ s.queuedRequests.filter _)
  unfold abort
  rw [hrs, foldl_cons]
  refine hkeep rs _ ?_
  unfold abortRequest
  rw [if_pos hr]
  exact drainQueues_stuck _

/-- The step lemma: an operation drains exactly when it does not return early. -/
theorem drains_iff (hs : s.Sound) {e : Event} (h : s.step e = some s') :
    s.Drains e ↔ ¬ s.ReturnsEarly e := by
  have hdef : s.Drains e ↔ (s.IsOperation e → s'.Stuck) :=
    ⟨fun hd => hd s' h, fun hst t ht hop => Option.some.inj (h.symm.trans ht) ▸ hst hop⟩
  rw [hdef]
  have hord : s.Ordered s.calls := hs
  cases e with
  | acquireMany requirements options =>
    cases h
    simp only [IsOperation, true_implies]
    exact acquireManyAs_stuck_iff hord requirements options
  | release call =>
    simp only [step] at h
    simp only [IsOperation, true_implies, ReturnsEarly]
    split at h
    · next permit hfind =>
      cases h
      obtain ⟨timers, heq⟩ := release_eq permit s
      refine iff_of_true ?_ fun hearly => by simp [hfind] at hearly
      rw [heq]
      exact (drainQueues_stuck _).of_eq rfl rfl rfl
    · next hnone =>
      split at h
      · cases h
        simp only [hnone, true_and]
        exact stuck_iff
      · cases h
  | timeout request =>
    obtain ⟨-, h⟩ := Option.ite_none_right_eq_some.1 h
    cases h
    exact iff_of_true (fun _ => drainQueues_stuck _) id
  | abort signal reason =>
    obtain ⟨-, h⟩ := Option.ite_none_left_eq_some.1 h
    cases h
    exact iff_of_true (fun hop => abort_stuck hop) id
  | unblock key =>
    cases h
    simp only [IsOperation, true_implies, ReturnsEarly]
    cases hg : s.gates.get key with
    | none =>
      simp only [unblock, hg, true_and]
      exact stuck_iff
    | some gate =>
      refine iff_of_true ?_ fun hearly => by simp at hearly
      simp only [unblock, hg]
      exact (drainQueues_stuck _).cleanupGateIfIdle (hord.clearBlock key).drainQueues key
  | reset key =>
    cases h
    simp only [IsOperation, true_implies, ReturnsEarly]
    cases hg : s.gates.get key with
    | none =>
      simp only [reset, hg, true_and]
      exact stuck_iff
    | some gate =>
      refine iff_of_true ?_ fun hearly => by simp at hearly
      obtain ⟨s₁, heq, -⟩ := reset_eq hord hg
      rw [heq]
      exact (drainQueues_stuck s₁).of_eq rfl rfl rfl
  | resetAll =>
    cases h
    obtain ⟨timers, rejections, heq⟩ := resetAll_eq hord
    refine iff_of_true (fun _ request hmem => ?_) id
    rw [heq] at hmem
    cases hmem
  | markBlocked key «until» => exact iff_of_true (fun hop => hop.elim) id
  | _ => exact iff_of_true (fun hop => hop.elim) id

/-- The oldest request is at the head of all its queues. -/
def OldestLeads (s : AccountSemaphore) : Prop :=
  ∀ request, s.queuedRequests.head? = some request →
    ∀ key ∈ request.keys, (s.queueOf key).head? = some request.call

theorem Ordered.oldestLeads (h : s.Ordered calls) : s.OldestLeads := by
  intro request hhead key hk
  rw [h.queue]
  cases hq : s.queuedRequests with
  | nil => simp [hq] at hhead
  | cons r rs =>
    obtain rfl : r = request := by simpa [hq] using hhead
    simp [hk]

/-! ## Runs -/

/-- **The queues stay in order in every run, and an operation drains to a fixpoint exactly when
it does not return early past a request that is ready.** -/
theorem order_and_progress (now : ℕ) (es : List Event) :
    Trace.Throughout step (fun s => s.Ordered s.calls ∧ s.OldestLeads) (start now) es ∧
      (Trace.Meets step Drains (start now) es ↔
        Trace.Meets step (fun s e => ¬ s.ReturnsEarly e) (start now) es) := by
  have hstep : ∀ s e s', Sound s → step s e = some s' → Sound s' := fun _ _ _ hs h => hs.step h
  exact ⟨(Trace.throughout_of_invariant hstep es (Sound.start now)).mono fun s hs =>
      ⟨hs, Ordered.oldestLeads hs⟩,
    Trace.meets_congr hstep (fun _ _ _ hs h => drains_iff hs h) es (Sound.start now)⟩

/-- A requirement of one slot. -/
def one (key : String) : SemaphoreRequirement := { key := key, maxConcurrency := some 1 }

/-- One request waits for "a"; the next call asks for two slots of "a" and is refused, because
one request is waiting. -/
def refusedCall : List Event :=
  [.acquireMany [one "a"] {}, .acquireMany [one "a"] {},
    .acquireMany [{ key := "a", maxConcurrency := some 2 }] { maxQueueSize := 1 }]

/-- One request waits for "a", which is blocked; after the block a call is admitted to "b". -/
def blockedCall : List Event :=
  [.markBlocked "a" (.duration 1000), .acquireMany [one "a"] {}, .advance 1000,
    .acquireMany [one "b"] {}]

/-- **A call can return while a request is ready**: a refused call has raised the limit of the
gate it was refused at, and the end of a block is noticed by nobody. -/
theorem call_returns_early :
    (∃ s, Trace.exec step (start 1) refusedCall = some s ∧
      ∃ request ∈ s.queuedRequests, s.canAcquire request = true) ∧
    ∃ s, Trace.exec step (start 1) blockedCall = some s ∧
      ∃ request ∈ s.queuedRequests, s.canAcquire request = true := by
  constructor
  · exact ⟨_, rfl, _, mem_cons_self, by decide⟩
  · exact ⟨_, rfl, _, mem_cons_self, by decide⟩

end AccountSemaphore

end OmniRoute
