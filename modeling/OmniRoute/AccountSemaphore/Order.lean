import OmniRoute.AccountSemaphore.Queues

/-!
# The order is kept

Every operation keeps the queues of the account semaphore in order (`Sound.step`). Requests
leave their queues one at a time (`Sheds`), by a timeout, an abort or a reset; a gate is dropped
only when its queue is empty, or after a reset has emptied it.
-/

namespace OmniRoute

open Numbered List Option OrdMap AccountSemaphore

namespace AccountSemaphore

variable {calls : ℕ} {s s' s'' : AccountSemaphore}

/-! ## Requests leave -/

/-- Requests have left the queues; nothing else happened to the gates. -/
structure Sheds (s s' : AccountSemaphore) : Prop where
  gate : ∀ key, ∃ queue, queue.Sublist (s.queueOf key) ∧
    s'.gates.get key = (s.gates.get key).map fun gate => { gate with queue := queue }
  rest : ∃ queuedRequests timers, queuedRequests.Sublist s.queuedRequests ∧
    s' = { s with gates := s'.gates, queuedRequests := queuedRequests, cleanupTimers := timers }

theorem Sheds.of_timers (s : AccountSemaphore) (timers : List CleanupTimer) :
    Sheds s { s with cleanupTimers := timers } where
  gate key := ⟨s.queueOf key, Sublist.refl _, by
    unfold queueOf
    cases s.gates.get key <;> rfl⟩
  rest := ⟨s.queuedRequests, timers, Sublist.refl _, rfl⟩

theorem Sheds.refl (s : AccountSemaphore) : Sheds s s := .of_timers s s.cleanupTimers

theorem Sheds.trans (h : Sheds s s') (h' : Sheds s' s'') : Sheds s s'' where
  gate key := by
    obtain ⟨queue, hsub, hg⟩ := h.gate key
    obtain ⟨queue', hsub', hg'⟩ := h'.gate key
    refine ⟨queue', hsub'.trans ?_, ?_⟩
    · simp only [queueOf, hg] at *
      cases hgk : s.gates.get key with
      | none => simp
      | some gate => simpa [hgk] using hsub
    · rw [hg', hg]
      cases s.gates.get key <;> rfl
  rest := by
    obtain ⟨queued, timers, hsub, heq⟩ := h.rest
    obtain ⟨queued', timers', hsub', heq'⟩ := h'.rest
    refine ⟨queued', timers', hsub'.trans ?_, ?_⟩
    · rw [heq]
      exact hsub
    · rw [heq', heq]

theorem removeRequest_sheds {request : AcquireRequest} (hkeys : request.keys.Nodup)
    (s : AccountSemaphore) : Sheds s (s.removeRequest request) := by
  obtain ⟨timers, heq⟩ := removeRequest_eq request s
  rw [heq]
  refine ⟨fun key => ?_, s.queuedRequests.erase request, timers, erase_sublist, rfl⟩
  by_cases hk : key ∈ request.keys
  · refine ⟨(s.queueOf key).erase request.call, erase_sublist, ?_⟩
    rw [get_modifyAll _ hkeys, if_pos hk]
    unfold queueOf
    cases s.gates.get key <;> rfl
  · refine ⟨s.queueOf key, Sublist.refl _, ?_⟩
    rw [get_modifyAll _ hkeys, if_neg hk]
    unfold queueOf
    cases s.gates.get key <;> rfl

theorem dropRequest_spec (h : s.Ordered calls) (call : ℕ) :
    (s.dropRequest call).Ordered calls ∧ Sheds s (s.dropRequest call) ∧
      ∀ r ∈ (s.dropRequest call).queuedRequests, r ∈ s.queuedRequests ∧ r.call ≠ call := by
  unfold dropRequest
  split
  · next hnone =>
    refine ⟨h, .refl s, fun r hr => ⟨hr, fun hc => ?_⟩⟩
    exact find?_eq_none.1 hnone r hr (by simpa using hc)
  · next request hfind =>
    have hr := mem_of_find?_eq_some hfind
    have hc : request.call = call := by simpa using find?_some hfind
    refine ⟨h.removeRequest hr, removeRequest_sheds (h.keys_nodup request hr) s, ?_⟩
    intro r hr'
    obtain ⟨timers, heq⟩ := removeRequest_eq request s
    rw [heq] at hr'
    obtain ⟨hne, hmem⟩ := h.arrival.nodup.mem_erase_iff.1 hr'
    exact ⟨hmem, fun hc' => hne (h.arrival.inj hmem hr (hc'.trans hc.symm))⟩

theorem dropRequests_spec (h : s.Ordered calls) (queue : List ℕ) :
    (queue.foldl dropRequest s).Ordered calls ∧ Sheds s (queue.foldl dropRequest s) ∧
      ∀ r ∈ (queue.foldl dropRequest s).queuedRequests,
        r ∈ s.queuedRequests ∧ r.call ∉ queue := by
  induction queue generalizing s with
  | nil => exact ⟨h, .refl s, fun r hr => ⟨hr, by simp⟩⟩
  | cons call queue ih =>
    obtain ⟨h₁, hs₁, hr₁⟩ := dropRequest_spec h call
    obtain ⟨h₂, hs₂, hr₂⟩ := ih h₁
    refine ⟨h₂, hs₁.trans hs₂, fun r hr => ?_⟩
    obtain ⟨hmem, hnot⟩ := hr₂ r hr
    exact ⟨(hr₁ r hmem).1, fun hc => (mem_cons.1 hc).elim (hr₁ r hmem).2 hnot⟩

theorem removeRequests_sheds (h : ∀ r ∈ s.queuedRequests, r.keys.Nodup)
    (requests : List AcquireRequest) (hsub : ∀ r ∈ requests, r.keys.Nodup) :
    Sheds s (requests.foldl (fun s request => s.removeRequest request) s) := by
  induction requests generalizing s with
  | nil => exact .refl s
  | cons request requests ih =>
    obtain ⟨hr, hrs⟩ := forall_mem_cons.1 hsub
    have hs₁ := removeRequest_sheds hr s
    refine hs₁.trans (ih ?_ hrs)
    obtain ⟨queued, timers, hsub, heq⟩ := hs₁.rest
    rw [heq]
    exact fun r hr => h r (hsub.subset hr)

theorem foldl_reject_eq (error : AcquireError) (queue : List ℕ) (s : AccountSemaphore) :
    ∃ rejections, queue.foldl (fun s call => s.reject call error) s =
      { s with rejections := rejections } := by
  induction queue generalizing s with
  | nil => exact ⟨_, rfl⟩
  | cons call queue ih => exact ih (s.reject call error)

/-! ## The order is kept -/

theorem fastPath_spec {keys : List String} (hs : s.Ordered calls) (hfast : s.fastPath keys = true)
    {key : String} (hk : key ∈ keys) :
    (∃ gate, s.gates.get key = some gate ∧ gate.hasRoom s.now = true) ∧ s.queueOf key = [] ∧
      ∀ r ∈ s.queuedRequests, key ∉ r.keys := by
  have hall := all_eq_true.1 hfast key hk
  cases hg : s.gates.get key with
  | none => simp [hg] at hall
  | some gate =>
    simp only [hg, Bool.and_eq_true, List.isEmpty_iff] at hall
    have hq : s.queueOf key = [] := by simp [queueOf, hg, hall.1]
    refine ⟨⟨gate, rfl, hall.2⟩, hq, fun r hr hkr => ?_⟩
    obtain ⟨gate', hg', hmem⟩ := hs.gate_of_mem hr hkr
    obtain rfl := some.inj (hg.symm.trans hg')
    rw [hall.1] at hmem
    cases hmem

theorem Ordered.reject (h : s.Ordered calls) (call : ℕ) (error : AcquireError) :
    (s.reject call error).Ordered calls :=
  h.of_eq (fun _ => rfl) rfl rfl h.permit_keys

theorem Ordered.takeSlots (h : s.Ordered calls) {keys : List String} (hkeys : keys.Nodup) :
    (s.takeSlots keys).Ordered calls :=
  h.of_eq (fun key => queueOf_takeSlots hkeys key s) (by rw [takeSlots_eq]) (by rw [takeSlots_eq])
    (by rw [takeSlots_eq]; exact h.permit_keys)

theorem Ordered.acquireManyAs (h : s.Ordered calls) (requirements : List SemaphoreRequirement)
    (options : AcquireManyOptions) :
    (s.acquireManyAs calls requirements options).Ordered (calls + 1) := by
  have hrel := ensureGates_spec (enabledLimits requirements) options.maxQueueSize
    (sortedKeys (enabledLimits requirements)) s
  have hw : (s.limitsWritten requirements options).2.Ordered calls := hrel.ordered h
  have hnodup := nodup_sortedKeys (enabledLimits requirements)
  have hcase := acquireManyAs_cases calls requirements options s
  generalize s.acquireManyAs calls requirements options = t at hcase ⊢
  cases hcase with
  | bypassed hsize =>
    have h' := h.mono (Nat.le_succ calls)
    refine h'.grant (Nat.lt_succ_self _) ?_ ?_ h.permit_keys
    · rintro g - ⟨key, -, hk⟩
      cases hk
    · rintro r - ⟨key, hk, -⟩
      cases hk
  | aborted signal reason hsize hab => exact (h.mono (Nat.le_succ calls)).reject _ _
  | full key error hsize hab hens => exact (hw.mono (Nat.le_succ calls)).reject _ _
  | fast hsize hab hens hfast =>
    have h' := (hw.takeSlots hnodup).mono (Nat.le_succ calls)
    refine h'.grant (Nat.lt_succ_self _) ?_ ?_ fun p hp => ?_
    · intro g hg _
      exact (hw.takeSlots hnodup).granted_lt g hg
    · rintro r hr ⟨key, hk, hkr⟩
      rw [takeSlots_eq] at hr
      exact absurd hkr ((fastPath_spec hw hfast hk).2.2 r hr)
    · rcases mem_append.1 hp with hp | hp
      · exact h'.permit_keys p hp
      · rw [mem_singleton.1 hp]
        exact hnodup
  | queued hsize hab hens hslow =>
    refine Ordered.drainQueues (hw.enqueue _ hnodup rfl fun key hk => ?_)
    exact ⟨_, hrel.all_of hens key hk⟩

theorem queueOf_giveSlot (keys : List String) (hkeys : keys.Nodup) (key : String)
    (s : AccountSemaphore) :
    queueOf { s with gates := s.gates.modifyAll keys giveSlot } key = s.queueOf key := by
  have hgive : ∀ gate, (giveSlot gate).queue = gate.queue := fun gate => by
    unfold giveSlot
    split <;> rfl
  simp only [queueOf, get_modifyAll _ hkeys]
  split
  · cases s.gates.get key <;> simp [hgive]
  · rfl

/-- A release before it drains. -/
def giveBack (permit : Permit) (s : AccountSemaphore) : AccountSemaphore :=
  { s with
    permits := s.permits.erase permit
    gates := s.gates.modifyAll permit.keys giveSlot }

theorem release_eq (permit : Permit) (s : AccountSemaphore) :
    ∃ timers, s.release permit =
      { (s.giveBack permit).drainQueues with cleanupTimers := timers } := by
  obtain ⟨timers, h⟩ := foldl_scheduleIfIdle_eq permit.keys (s.giveBack permit).drainQueues
  refine ⟨timers, Eq.trans ?_ h⟩
  unfold release
  dsimp only
  rw [show (fun (s : AccountSemaphore) (key : String) => s.updateGate key fun gate =>
      if gate.running > 0 then { gate with running := gate.running - 1 } else gate) =
    fun s key => s.updateGate key giveSlot from rfl, foldl_updateGate_eq]
  rfl

section

variable (h : s.Ordered calls)
include h

theorem Ordered.giveBack {permit : Permit} (hp : permit ∈ s.permits) :
    (s.giveBack permit).Ordered calls :=
  h.of_eq (queueOf_giveSlot permit.keys (h.permit_keys permit hp) · s) rfl rfl fun p hmem =>
    h.permit_keys p (mem_of_mem_erase hmem)

theorem Ordered.release {permit : Permit} (hp : permit ∈ s.permits) :
    (s.release permit).Ordered calls := by
  obtain ⟨timers, heq⟩ := release_eq permit s
  rw [heq]
  have hdrain := (h.giveBack hp).drainQueues
  exact hdrain.of_eq (fun _ => rfl) rfl rfl hdrain.permit_keys

theorem Ordered.expire {request : AcquireRequest}
    (hr : request ∈ s.queuedRequests) : (s.expire request).Ordered calls :=
  ((h.removeRequest hr).reject _ _).drainQueues

theorem Ordered.abortRequest (error : AcquireError)
    (request : AcquireRequest) : (s.abortRequest error request).Ordered calls := by
  unfold AccountSemaphore.abortRequest
  split
  · next hr => exact ((h.removeRequest hr).reject _ _).drainQueues
  · exact h

theorem Ordered.abort (signal : ℕ) (reason : AbortReason) :
    (s.abort signal reason).Ordered calls := by
  have hfold : ∀ (requests : List AcquireRequest) (s : AccountSemaphore), s.Ordered calls →
      (requests.foldl (AccountSemaphore.abortRequest (makeAbortError reason)) s).Ordered calls := by
    intro requests
    induction requests with
    | nil => exact fun s hs => hs
    | cons request requests ih => exact fun s hs => ih _ (hs.abortRequest _ request)
  exact hfold _ _ (h.of_eq (fun _ => rfl) rfl rfl h.permit_keys)

end

variable (key : String)

theorem markBlocked_cases («until» : BlockUntil) (s : AccountSemaphore) :
    s.markBlocked key «until» = s ∨ ∃ untilMs timers gates, ↑s.now < untilMs ∧
      s.markBlocked key «until» = { s with gates := gates, cleanupTimers := timers } ∧
      ∀ key', gates.get key' = if key' = key then
          some { (s.gates.get key).getD (.fresh 1) with blockedUntil := some untilMs }
        else s.gates.get key' := by
  unfold markBlocked
  split
  · exact Or.inl rfl
  · next untilMs _ =>
    split
    · exact Or.inl rfl
    · next hle =>
      refine Or.inr ⟨untilMs, s.cleanupTimers.filter (· ≠ ⟨key, false⟩),
        (s.ensureGate key (((s.gates.get key).map (·.maxConcurrency)).getD 1)).gates.modify key
          fun gate => { gate with blockedUntil := some untilMs }, not_le.1 hle, ?_, fun key' => ?_⟩
      · dsimp only
        rw [ensureGate_eq]
        rfl
      · rw [get_modify, get_ensureGate]
        by_cases hk : key' = key
        · subst hk
          cases s.gates.get key' <;> simp [AccountGate.fresh]
        · simp [hk]

section

variable (h : s.Ordered calls)
include h

theorem Ordered.markBlocked (key : String) («until» : BlockUntil) :
    (s.markBlocked key «until»).Ordered calls := by
  rcases markBlocked_cases key «until» s with heq | ⟨untilMs, timers, gates, -, heq, hget⟩
  · rw [heq]
    exact h
  · rw [heq]
    refine h.of_eq (fun key' => ?_) rfl rfl h.permit_keys
    simp only [queueOf, hget]
    by_cases hk : key' = key
    · subst hk
      cases s.gates.get key' <;> simp [AccountGate.fresh]
    · simp [hk]

omit h in
/-- Dropping a gate: it has nobody waiting, and if nobody holds a permit it is not blocked. -/
theorem cleanupGateIfIdle_cases (s : AccountSemaphore) :
    s.cleanupGateIfIdle key = s ∨ ∃ gate timers, s.gates.get key = some gate ∧
      gate.running = 0 ∧ gate.queue = [] ∧
      s.cleanupGateIfIdle key =
        { s with gates := s.gates.delete key, cleanupTimers := timers } := by
  unfold cleanupGateIfIdle
  split
  · exact Or.inl rfl
  · next gate hg =>
    split
    · exact Or.inl rfl
    · next hidle =>
      simp only [not_or, Nat.not_lt, gt_iff_lt, Nat.le_zero, length_eq_zero_iff] at hidle
      exact Or.inr ⟨gate, _, hg, hidle.1, hidle.2.1, rfl⟩

theorem Ordered.cleanupGateIfIdle (key : String) : (s.cleanupGateIfIdle key).Ordered calls := by
  rcases cleanupGateIfIdle_cases key s with heq | ⟨gate, timers, hg, -, hq, heq⟩
  · rw [heq]
    exact h
  · rw [heq]
    refine h.of_eq (fun key' => ?_) rfl rfl h.permit_keys
    simp only [queueOf, get_delete]
    by_cases hk : key' = key
    · subst hk
      simp [hg, hq]
    · simp [hk]

theorem Ordered.clearBlock (key : String) :
    Ordered calls (s.updateGate key fun gate => { gate with blockedUntil := none }) := by
  refine h.of_eq (fun key' => ?_) rfl rfl h.permit_keys
  simp only [queueOf, updateGate, get_modify]
  by_cases hk : key' = key
  · subst hk
    cases s.gates.get key' <;> simp
  · simp [hk]

theorem Ordered.unblock (key : String) : (s.unblock key).Ordered calls := by
  unfold AccountSemaphore.unblock
  split
  · exact h
  · exact (h.clearBlock key).drainQueues.cleanupGateIfIdle key

/-- What a reset of a key with a gate does before it drains. -/
theorem reset_eq {key : String} {gate : AccountGate} (hg : s.gates.get key = some gate) :
    ∃ s₁ : AccountSemaphore, s.reset key = s₁.drainQueues ∧ s₁.Ordered calls ∧
      s₁.permits = s.permits ∧ s₁.granted = s.granted ∧ s₁.now = s.now ∧ s₁.calls = s.calls ∧
      s₁.aborted = s.aborted ∧ s₁.queuedRequests.Sublist s.queuedRequests ∧
      ∀ key', if key' = key then s₁.gates.get key' = none
        else ∃ queue, queue.Sublist (s.queueOf key') ∧
          s₁.gates.get key' = (s.gates.get key').map fun gate => { gate with queue := queue } := by
  have hcl : (s.clearCleanupTimer key).Ordered calls := by
    refine h.of_eq ?_ rfl rfl h.permit_keys
    exact fun _ => rfl
  obtain ⟨hord, hshed, hleft⟩ := dropRequests_spec hcl gate.queue
  have hreset : s.reset key = drainQueues
      (gate.queue.foldl (fun s call => s.reject call
          (.semaphore "SEMAPHORE_RESET" s!"Semaphore reset for {key}"))
        { (gate.queue.foldl dropRequest (s.clearCleanupTimer key)) with
          gates := (gate.queue.foldl dropRequest (s.clearCleanupTimer key)).gates.delete key
          cleanupTimers := (gate.queue.foldl dropRequest (s.clearCleanupTimer key)).cleanupTimers.map
            fun t => if t.key = key then { t with orphan := true } else t }) := by
    simp only [reset, hg]
  generalize gate.queue.foldl dropRequest (s.clearCleanupTimer key) = s₀ at *
  obtain ⟨rejections, hrej⟩ := foldl_reject_eq
    (.semaphore "SEMAPHORE_RESET" s!"Semaphore reset for {key}") gate.queue
    { s₀ with
      gates := s₀.gates.delete key
      cleanupTimers := s₀.cleanupTimers.map fun t =>
        if t.key = key then { t with orphan := true } else t }
  rw [hrej] at hreset
  obtain ⟨queued, timers, hsub, heq⟩ := hshed.rest
  refine ⟨_, hreset, ?_, ?_, ?_, ?_, ?_, ?_, ?_, fun key' => ?_⟩
  · -- Whoever waited for the key has been dropped, so its queue may go.
    refine hord.of_eq (fun key' => ?_) rfl rfl hord.permit_keys
    simp only [queueOf, get_delete]
    by_cases hk : key' = key
    · subst hk
      have hnil : s₀.queueOf key' = [] := by
        rw [hord.queue, map_eq_nil_iff, filter_eq_nil_iff]
        intro r hr
        obtain ⟨hmem, hnot⟩ := hleft r hr
        simp only [decide_eq_true_eq]
        intro hkr
        obtain ⟨gate', hg', hc⟩ := hcl.gate_of_mem hmem hkr
        obtain rfl := some.inj (hg.symm.trans hg')
        exact hnot hc
      simpa [queueOf] using hnil.symm
    · simp [hk]
  · rw [heq]; rfl
  · rw [heq]; rfl
  · rw [heq]; rfl
  · rw [heq]; rfl
  · rw [heq]; rfl
  · rw [heq]; exact hsub
  · split
    · next hk => simp [hk]
    · next hk =>
      obtain ⟨queue, hsubq, hgate⟩ := hshed.gate key'
      refine ⟨queue, hsubq, ?_⟩
      rw [get_delete_ne _ hk]
      exact hgate

theorem Ordered.reset (key : String) : (s.reset key).Ordered calls := by
  cases hg : s.gates.get key with
  | none => simpa [AccountSemaphore.reset, hg] using h
  | some gate =>
    obtain ⟨s₁, heq, hord, -⟩ := reset_eq h hg
    rw [heq]
    exact hord.drainQueues

end

theorem resetAll_eq (h : s.Ordered calls) :
    ∃ timers rejections, s.resetAll =
      { s with
        gates := .empty
        queuedRequests := []
        cleanupTimers := timers
        rejections := rejections } := by
  obtain ⟨queued, timers, -, heq⟩ :=
    (removeRequests_sheds h.keys_nodup s.queuedRequests h.keys_nodup).rest
  have hrej : ∀ (requests : List AcquireRequest) (s : AccountSemaphore), ∃ rejections,
      requests.foldl (fun s request => s.reject request.call
        (.semaphore "SEMAPHORE_RESET" "Semaphore reset")) s = { s with rejections := rejections } := by
    intro requests
    induction requests with
    | nil => exact fun s => ⟨_, rfl⟩
    | cons request requests ih => exact fun s => ih _
  unfold resetAll
  dsimp only
  obtain ⟨rejections, hr⟩ := hrej s.queuedRequests
    { s.queuedRequests.foldl (fun s request => s.removeRequest request) s with
      cleanupTimers := (s.queuedRequests.foldl (fun s request => s.removeRequest request)
        s).cleanupTimers.filter fun t => t.orphan ∨ ((s.queuedRequests.foldl
          (fun s request => s.removeRequest request) s).gates.get t.key).isNone
      gates := .empty
      queuedRequests := [] }
  rw [hr, heq]
  exact ⟨_, _, rfl⟩

theorem Ordered.resetAll (h : s.Ordered calls) : s.resetAll.Ordered calls := by
  obtain ⟨timers, rejections, heq⟩ := resetAll_eq h
  rw [heq]
  exact
    { queue := fun _ => rfl
      arrival := Pairwise.nil
      keys_nodup := fun r hr => absurd hr not_mem_nil
      call_lt := fun r hr => absurd hr not_mem_nil
      granted_order := h.granted_order
      granted_first := fun g _ r hr => absurd hr not_mem_nil
      granted_lt := h.granted_lt
      permit_keys := h.permit_keys }

/-! ## The clock and the call count -/

/-- The clock and the call count stand. -/
structure Frame (s s' : AccountSemaphore) : Prop where
  now : s'.now = s.now
  calls : s'.calls = s.calls

theorem Frame.trans (h : Frame s s') (h' : Frame s' s'') : Frame s s'' :=
  ⟨h'.now.trans h.now, h'.calls.trans h.calls⟩

theorem removeRequest_frame (request : AcquireRequest) (s : AccountSemaphore) :
    Frame s (s.removeRequest request) := by
  obtain ⟨timers, heq⟩ := removeRequest_eq request s
  exact heq ▸ ⟨rfl, rfl⟩

theorem drainQueues_frame (s : AccountSemaphore) : Frame s s.drainQueues := by
  refine drainQueues_induct (I := Frame s) (fun t request ht _ _ => ?_) ⟨rfl, rfl⟩
  obtain ⟨timers, heq⟩ := admit_eq request t
  rw [heq]
  exact ⟨ht.now, ht.calls⟩

theorem cleanupGateIfIdle_frame (s : AccountSemaphore) : Frame s (s.cleanupGateIfIdle key) := by
  rcases cleanupGateIfIdle_cases key s with heq | ⟨gate, timers, -, -, -, heq⟩
  · exact ⟨by rw [heq], by rw [heq]⟩
  · exact ⟨by rw [heq], by rw [heq]⟩

theorem release_frame (permit : Permit) (s : AccountSemaphore) : Frame s (s.release permit) := by
  obtain ⟨timers, heq⟩ := release_eq permit s
  obtain ⟨hn, hc⟩ := drainQueues_frame (s.giveBack permit)
  exact heq ▸ ⟨hn, hc⟩

/-- A request is removed, its promise is rejected, and the queues are drained. -/
theorem removed_frame (request : AcquireRequest) (error : AcquireError) (s : AccountSemaphore) :
    Frame s ((s.removeRequest request).reject request.call error).drainQueues := by
  obtain ⟨hn, hc⟩ := drainQueues_frame ((s.removeRequest request).reject request.call error)
  exact (removeRequest_frame request s).trans ⟨hn, hc⟩

theorem abort_frame (signal : ℕ) (reason : AbortReason) (s : AccountSemaphore) :
    Frame s (s.abort signal reason) := by
  have hfold : ∀ (requests : List AcquireRequest) (s : AccountSemaphore),
      Frame s (requests.foldl (abortRequest (makeAbortError reason)) s) := by
    intro requests
    induction requests with
    | nil => exact fun s => ⟨rfl, rfl⟩
    | cons request requests ih =>
      intro s
      refine Frame.trans ?_ (ih (s.abortRequest (makeAbortError reason) request))
      unfold abortRequest
      split
      · exact removed_frame request _ s
      · exact ⟨rfl, rfl⟩
  obtain ⟨hn, hc⟩ := hfold (s.queuedRequests.filter (·.signal = some signal))
    { s with aborted := s.aborted ++ [(signal, reason)] }
  exact ⟨hn, hc⟩

theorem markBlocked_frame («until» : BlockUntil) (s : AccountSemaphore) :
    Frame s (s.markBlocked key «until») := by
  rcases markBlocked_cases key «until» s with heq | ⟨untilMs, timers, gates, -, heq, -⟩
  · exact ⟨by rw [heq], by rw [heq]⟩
  · exact ⟨by rw [heq], by rw [heq]⟩

theorem unblock_frame (s : AccountSemaphore) : Frame s (s.unblock key) := by
  unfold unblock
  split
  · exact ⟨rfl, rfl⟩
  · obtain ⟨hn, hc⟩ := (drainQueues_frame
      (s.updateGate key fun gate => { gate with blockedUntil := none })).trans
        (cleanupGateIfIdle_frame key _)
    exact ⟨hn, hc⟩

theorem reset_frame (h : s.Ordered calls) (key : String) : Frame s (s.reset key) := by
  cases hg : s.gates.get key with
  | none => simpa [reset, hg] using Frame.mk rfl rfl
  | some gate =>
    obtain ⟨s₁, heq, -, -, -, hn, hc, -⟩ := reset_eq h hg
    obtain ⟨hn', hc'⟩ := drainQueues_frame s₁
    exact heq ▸ ⟨hn'.trans hn, hc'.trans hc⟩

/-! ## Steps -/

/-- `Ordered`, by the number of calls made so far. -/
def Sound (s : AccountSemaphore) : Prop := s.Ordered s.calls

theorem Sound.start (now : ℕ) : (start now).Sound where
  queue _ := rfl
  arrival := Pairwise.nil
  keys_nodup _ hr := absurd hr not_mem_nil
  call_lt _ hr := absurd hr not_mem_nil
  granted_order := Pairwise.nil
  granted_first _ hg := absurd hg not_mem_nil
  granted_lt _ hg := absurd hg not_mem_nil
  permit_keys _ hp := absurd hp not_mem_nil

theorem Sound.of_frame (hs' : s'.Ordered s.calls) (hf : Frame s s') : s'.Sound := by
  unfold Sound
  rw [hf.calls]
  exact hs'

/-- **The order is an invariant**, whatever the operations and their order. -/
theorem Sound.step (hs : s.Sound) {e : Event} (h : s.step e = some s') : s'.Sound := by
  have hord : s.Ordered s.calls := hs
  cases e with
  | acquireMany requirements options =>
    cases h
    have hacq := hord.acquireManyAs requirements options
    exact hacq.of_eq (fun _ => rfl) rfl rfl hacq.permit_keys
  | release call =>
    simp only [AccountSemaphore.step] at h
    split at h
    · next permit hfind =>
      cases h
      exact .of_frame (hord.release (mem_of_find?_eq_some hfind)) (release_frame permit s)
    · split at h
      · exact some.inj h ▸ hs
      · cases h
  | timeout request =>
    obtain ⟨⟨hr, -⟩, h⟩ := Option.ite_none_right_eq_some.1 h
    cases h
    exact .of_frame (hord.expire hr) (removed_frame request _ s)
  | abort signal reason =>
    obtain ⟨-, h⟩ := Option.ite_none_left_eq_some.1 h
    cases h
    exact .of_frame (hord.abort signal reason) (abort_frame signal reason s)
  | markBlocked key «until» =>
    cases h
    exact .of_frame (hord.markBlocked key «until») (markBlocked_frame key «until» s)
  | unblock key =>
    cases h
    exact .of_frame (hord.unblock key) (unblock_frame key s)
  | reset key =>
    cases h
    have hreset := hord.reset key
    refine .of_frame (hreset.of_eq (fun _ => rfl) rfl rfl fun p hp => ?_)
      ((reset_frame hord key).trans ⟨rfl, rfl⟩)
    obtain ⟨p₀, hp₀, rfl⟩ := mem_map.1 hp
    exact hreset.permit_keys p₀ hp₀
  | resetAll =>
    cases h
    obtain ⟨timers, rejections, heq⟩ := resetAll_eq hord
    refine .of_frame (hord.resetAll.of_eq (fun _ => rfl) rfl rfl fun p hp => ?_)
      ⟨by rw [heq], by rw [heq]⟩
    obtain ⟨p₀, hp₀, rfl⟩ := mem_map.1 hp
    exact hord.permit_keys p₀ hp₀
  | cleanup t =>
    obtain ⟨-, h⟩ := Option.ite_none_right_eq_some.1 h
    cases h
    have herase : Ordered s.calls { s with cleanupTimers := s.cleanupTimers.erase t } :=
      hord.of_eq (fun _ => rfl) rfl rfl hord.permit_keys
    obtain ⟨hn, hc⟩ := cleanupGateIfIdle_frame t.key
      { s with cleanupTimers := s.cleanupTimers.erase t }
    exact .of_frame (herase.cleanupGateIfIdle t.key) ⟨hn, hc⟩
  | advance dt =>
    cases h
    exact hord.of_eq (fun _ => rfl) rfl rfl hord.permit_keys

end AccountSemaphore

end OmniRoute
