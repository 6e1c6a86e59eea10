import OmniRoute.AccountSemaphore.Admission
import OmniRoute.Lib.Numbered
import OmniRoute.Lib.Trace

/-!
# The queues of the account semaphore

Each gate has a queue of its own, and a request waits in the queues of all its keys. The queues
never disagree: every one of them is the list `queuedRequests`, filtered by key (`Ordered`). So
a request that is at the head of all its queues is older than every request it shares a key
with, and requests that share a key are admitted in arrival order.
-/

namespace OmniRoute

open Numbered List

namespace AccountSemaphore

/-! ## What the functions write

The cleanup timers, which no other function reads, are left open. -/

theorem scheduleIfIdle_eq (key : String) (s : AccountSemaphore) :
    ∃ timers, s.scheduleIfIdle key = { s with cleanupTimers := timers } := by
  unfold scheduleIfIdle
  split
  · exact ⟨_, rfl⟩
  · split
    · exact ⟨_, rfl⟩
    · exact ⟨_, rfl⟩

theorem foldl_scheduleIfIdle_eq (keys : List String) (s : AccountSemaphore) :
    ∃ timers, keys.foldl (fun s key => s.scheduleIfIdle key) s =
      { s with cleanupTimers := timers } := by
  induction keys generalizing s with
  | nil => exact ⟨_, rfl⟩
  | cons key keys ih =>
    obtain ⟨timers, h⟩ := scheduleIfIdle_eq key s
    obtain ⟨timers', h'⟩ := ih (s.scheduleIfIdle key)
    exact ⟨timers', h'.trans (by rw [h])⟩

/-- Leave the queue. -/
def dequeue (call : ℕ) (gate : AccountGate) : AccountGate :=
  { gate with queue := gate.queue.erase call }

def takeSlot (gate : AccountGate) : AccountGate := { gate with running := gate.running + 1 }

def giveSlot (gate : AccountGate) : AccountGate :=
  if gate.running > 0 then { gate with running := gate.running - 1 } else gate

section

variable (request : AcquireRequest)

theorem removeRequest_eq (s : AccountSemaphore) :
    ∃ timers, s.removeRequest request =
      { s with
        queuedRequests := s.queuedRequests.erase request
        gates := s.gates.modifyAll request.keys (dequeue request.call)
        cleanupTimers := timers } := by
  have hfold : ∀ (keys : List String) (s : AccountSemaphore), ∃ timers,
      keys.foldl (fun s key => (s.updateGate key (dequeue request.call)).scheduleIfIdle key) s =
        { s with
          gates := s.gates.modifyAll keys (dequeue request.call)
          cleanupTimers := timers } := by
    intro keys
    induction keys with
    | nil => exact fun s => ⟨_, rfl⟩
    | cons key keys ih =>
      intro s
      obtain ⟨timers, h⟩ := scheduleIfIdle_eq key (s.updateGate key (dequeue request.call))
      obtain ⟨timers', h'⟩ := ih ((s.updateGate key (dequeue request.call)).scheduleIfIdle key)
      refine ⟨timers', h'.trans ?_⟩
      rw [h]
      rfl
  exact hfold request.keys { s with queuedRequests := s.queuedRequests.erase request }

theorem foldl_updateGate_eq (keys : List String) (f : AccountGate → AccountGate)
    (s : AccountSemaphore) :
    keys.foldl (fun s key => s.updateGate key f) s =
      { s with gates := s.gates.modifyAll keys f } := by
  induction keys generalizing s with
  | nil => rfl
  | cons key keys ih => exact ih (s.updateGate key f)

theorem takeSlots_eq (keys : List String) (s : AccountSemaphore) :
    s.takeSlots keys = { s with gates := s.gates.modifyAll keys takeSlot } :=
  foldl_updateGate_eq keys takeSlot s

theorem admit_eq (s : AccountSemaphore) :
    ∃ timers, s.admitQueued request =
      { s with
        queuedRequests := s.queuedRequests.erase request
        gates := (s.gates.modifyAll request.keys (dequeue request.call)).modifyAll request.keys
          takeSlot
        granted := s.granted ++ [(request.call, request.keys)]
        permits := s.permits ++ [⟨request.call, request.keys, request.keys⟩]
        cleanupTimers := timers } := by
  obtain ⟨timers, h⟩ := removeRequest_eq request s
  refine ⟨timers, ?_⟩
  unfold admitQueued
  rw [takeSlots_eq, h]
  rfl

theorem enqueue_eq (s : AccountSemaphore) :
    s.enqueue request =
      { s with
        queuedRequests := s.queuedRequests ++ [request]
        gates := s.gates.modifyAll request.keys fun gate =>
          { gate with queue := gate.queue ++ [request.call] } } :=
  foldl_updateGate_eq _ _ _

end

/-! ## Draining -/

/-- What every admission preserves, a drain preserves. -/
theorem drainQueues_induct {I : AccountSemaphore → Prop}
    (hI : ∀ s request, I s → request ∈ s.queuedRequests → s.canAcquire request = true →
      I (s.admitQueued request))
    {s : AccountSemaphore} (hs : I s) : I s.drainQueues := by
  have hrounds : ∀ n s, I s → I (drainRounds n s) := by
    intro n
    induction n with
    | zero => exact fun s hs => hs
    | succ n ih =>
      intro s hs
      simp only [drainRounds]
      split
      · exact hs
      · next request hfind =>
        exact ih _ (hI s request hs (mem_of_find?_eq_some hfind) (find?_some hfind))
  exact hrounds _ s hs

/-- No queued request can be admitted. -/
def Stuck (s : AccountSemaphore) : Prop :=
  ∀ request ∈ s.queuedRequests, s.canAcquire request = false

/-- **A drain runs to a fixpoint.** -/
theorem drainQueues_stuck (s : AccountSemaphore) : s.drainQueues.Stuck := by
  have hrounds : ∀ n s, s.queuedRequests.length ≤ n → (drainRounds n s).Stuck := by
    intro n
    induction n with
    | zero =>
      intro s hlen request hmem
      have hnil : s.queuedRequests = [] := length_eq_zero_iff.1 (Nat.le_zero.1 hlen)
      exact absurd (hnil ▸ hmem : request ∈ []) not_mem_nil
    | succ n ih =>
      intro s hlen
      simp only [drainRounds]
      split
      · next hnone =>
        exact fun request hmem => by simpa using find?_eq_none.1 hnone request hmem
      · next request hfind =>
        have hmem := mem_of_find?_eq_some hfind
        obtain ⟨timers, h⟩ := admit_eq request s
        refine ih _ ?_
        rw [h]
        simp only [length_erase_of_mem hmem]
        omega
  exact hrounds _ s (Nat.le_refl _)

/-! ## The order of the queues -/

/-- The queue of a key; a key without a gate has none waiting. -/
def queueOf (s : AccountSemaphore) (key : String) : List ℕ :=
  ((s.gates.get key).map (·.queue)).getD []

/-- Two calls have a key in common. -/
def Shares (keys keys' : List String) : Prop := ∃ key ∈ keys, key ∈ keys'

/-- The queues are the waiting list, filtered by key, and nobody who waits was passed by a later
call with a key in common. `calls` bounds the calls made. -/
structure Ordered (calls : ℕ) (s : AccountSemaphore) : Prop where
  queue : ∀ key, s.queueOf key = (s.queuedRequests.filter (key ∈ ·.keys)).map (·.call)
  arrival : Increasing AcquireRequest.call s.queuedRequests
  keys_nodup : ∀ request ∈ s.queuedRequests, request.keys.Nodup
  call_lt : ∀ request ∈ s.queuedRequests, request.call < calls
  granted_order : s.granted.Pairwise fun g g' => Shares g.2 g'.2 → g.1 < g'.1
  granted_first : ∀ g ∈ s.granted, ∀ request ∈ s.queuedRequests,
    Shares g.2 request.keys → g.1 < request.call
  granted_lt : ∀ g ∈ s.granted, g.1 < calls
  permit_keys : ∀ p ∈ s.permits, p.keys.Nodup

variable {calls : ℕ} {s s' : AccountSemaphore}

theorem Ordered.of_eq (h : s.Ordered calls) (hq : ∀ key, s'.queueOf key = s.queueOf key)
    (hr : s'.queuedRequests = s.queuedRequests) (hg : s'.granted = s.granted)
    (hp : ∀ p ∈ s'.permits, p.keys.Nodup) : s'.Ordered calls where
  queue key := by rw [hq, hr, h.queue]
  arrival := hr ▸ h.arrival
  keys_nodup := hr ▸ h.keys_nodup
  call_lt := hr ▸ h.call_lt
  granted_order := hg ▸ h.granted_order
  granted_first := hg ▸ hr ▸ h.granted_first
  granted_lt := hg ▸ h.granted_lt
  permit_keys := hp

theorem Ordered.mono {calls' : ℕ} (h : s.Ordered calls) (hle : calls ≤ calls') : s.Ordered calls' :=
  { h with
    call_lt := fun r hr => Nat.lt_of_lt_of_le (h.call_lt r hr) hle
    granted_lt := fun g hg => Nat.lt_of_lt_of_le (h.granted_lt g hg) hle }

variable {request : AcquireRequest}

/-- A request that waits has a gate for each of its keys. -/
theorem Ordered.gate_of_mem (h : s.Ordered calls) (hr : request ∈ s.queuedRequests) {key : String}
    (hk : key ∈ request.keys) :
    ∃ gate, s.gates.get key = some gate ∧ request.call ∈ gate.queue := by
  have hmem : request.call ∈ s.queueOf key := by
    rw [h.queue]
    exact mem_map.2 ⟨request, mem_filter.2 ⟨hr, by simpa using hk⟩, rfl⟩
  unfold queueOf at hmem
  cases hg : s.gates.get key with
  | none => simp [hg] at hmem
  | some gate => exact ⟨gate, rfl, by simpa [hg] using hmem⟩

/-- **A request that can be admitted is older than all others it shares a key with.** -/
theorem Ordered.oldest (h : s.Ordered calls) {r r' : AcquireRequest} (hr : r ∈ s.queuedRequests)
    (hcan : s.canAcquire r = true) (hr' : r' ∈ s.queuedRequests) (hne : r' ≠ r)
    (hshare : Shares r.keys r'.keys) : r.call < r'.call := by
  obtain ⟨key, hk, hk'⟩ := hshare
  have hall := all_eq_true.1 hcan key hk
  obtain ⟨gate, hg, -⟩ := h.gate_of_mem hr hk
  simp only [hg, Bool.and_eq_true, beq_iff_eq] at hall
  have hqueue : gate.queue = (s.queuedRequests.filter (key ∈ ·.keys)).map (·.call) := by
    rw [← h.queue, queueOf, hg]
    rfl
  have hhead := hall.2
  rw [hqueue, head?_map, Option.map_eq_some_iff] at hhead
  obtain ⟨a, ha, hac⟩ := hhead
  have hsub := h.arrival.sublist (filter_sublist (p := fun r => decide (key ∈ r.keys)))
  have hmem : ∀ {b : AcquireRequest}, b ∈ s.queuedRequests → key ∈ b.keys →
      b ∈ s.queuedRequests.filter (key ∈ ·.keys) := fun hb hkb =>
    mem_filter.2 ⟨hb, by simpa using hkb⟩
  obtain rfl := hsub.inj (mem_of_mem_head? (Option.mem_def.2 ha)) (hmem hr hk) hac
  exact (hsub.head_le ha (hmem hr' hk')).resolve_left hne

/-- A request leaves all its queues at once. -/
theorem Ordered.removeRequest (h : s.Ordered calls) (hr : request ∈ s.queuedRequests) :
    (s.removeRequest request).Ordered calls := by
  obtain ⟨timers, heq⟩ := removeRequest_eq request s
  rw [heq]
  have hmem : ∀ {r}, r ∈ s.queuedRequests.erase request → r ∈ s.queuedRequests :=
    mem_of_mem_erase
  refine
    { queue := fun key => ?_
      arrival := h.arrival.erase request
      keys_nodup := fun r hr => h.keys_nodup r (hmem hr)
      call_lt := fun r hr => h.call_lt r (hmem hr)
      granted_order := h.granted_order
      granted_first := fun g hg r hr => h.granted_first g hg r (hmem hr)
      granted_lt := h.granted_lt
      permit_keys := h.permit_keys }
  have hq := h.queue key
  rw [h.arrival.map_filter_erase hr, ← hq]
  simp only [queueOf, OrdMap.get_modifyAll _ (h.keys_nodup request hr), decide_eq_true_eq]
  split
  · cases s.gates.get key <;> rfl
  · rfl

variable {keys : List String}

theorem queueOf_takeSlots (hkeys : keys.Nodup) (key : String) (s : AccountSemaphore) :
    (s.takeSlots keys).queueOf key = s.queueOf key := by
  rw [takeSlots_eq]
  simp only [queueOf, OrdMap.get_modifyAll _ hkeys]
  split
  · cases s.gates.get key <;> rfl
  · rfl

section

variable (h : s.Ordered calls)
include h

/-- Granting a call that is older than everybody waiting for one of its keys. -/
theorem Ordered.grant {call : ℕ} (hlt : call < calls)
    (hafter : ∀ g ∈ s.granted, Shares g.2 keys → g.1 < call)
    (hbefore : ∀ r ∈ s.queuedRequests, Shares keys r.keys → call < r.call) {permits : List Permit}
    (hpermits : ∀ p ∈ permits, p.keys.Nodup) :
    Ordered calls { s with granted := s.granted ++ [(call, keys)], permits := permits } :=
  { queue := h.queue
    arrival := h.arrival
    keys_nodup := h.keys_nodup
    call_lt := h.call_lt
    granted_order := pairwise_append.2 ⟨h.granted_order, pairwise_singleton _ _,
      fun g hg g' hg' hshare => by
        rw [mem_singleton.1 hg'] at hshare ⊢
        exact hafter g hg hshare⟩
    granted_first := fun g hg r hr hshare => by
      rcases mem_append.1 hg with hg | hg
      · exact h.granted_first g hg r hr hshare
      · rw [mem_singleton.1 hg] at hshare ⊢
        exact hbefore r hr hshare
    granted_lt := fun g hg => by
      rcases mem_append.1 hg with hg | hg
      · exact h.granted_lt g hg
      · rw [mem_singleton.1 hg]
        exact hlt
    permit_keys := hpermits }

theorem Ordered.admitQueued (hr : request ∈ s.queuedRequests)
    (hcan : s.canAcquire request = true) : (s.admitQueued request).Ordered calls := by
  have hrem := h.removeRequest hr
  obtain ⟨timers, heq⟩ := removeRequest_eq request s
  have hslots : ((s.removeRequest request).takeSlots request.keys).Ordered calls :=
    hrem.of_eq (fun key => queueOf_takeSlots (h.keys_nodup request hr) key _)
      (by rw [takeSlots_eq]) (by rw [takeSlots_eq]) (by rw [takeSlots_eq]; exact hrem.permit_keys)
  have hqueued : ((s.removeRequest request).takeSlots request.keys).queuedRequests =
      s.queuedRequests.erase request := by rw [takeSlots_eq, heq]
  have hgranted : ((s.removeRequest request).takeSlots request.keys).granted = s.granted := by
    rw [takeSlots_eq, heq]
  refine hslots.grant (h.call_lt request hr) ?_ ?_ (fun p hp => ?_)
  · rw [hgranted]
    exact fun g hg => h.granted_first g hg request hr
  · rw [hqueued]
    intro r' hr' hshare
    obtain ⟨hne, hmem⟩ := (h.arrival.nodup.mem_erase_iff).1 hr'
    exact h.oldest hr hcan hmem hne hshare
  · rcases mem_append.1 hp with hp | hp
    · exact hslots.permit_keys p hp
    · rw [mem_singleton.1 hp]
      exact h.keys_nodup request hr

theorem Ordered.drainQueues : s.drainQueues.Ordered calls :=
  drainQueues_induct (fun _ _ h hr hcan => h.admitQueued hr hcan) h

/-! ## The exported functions keep the order -/

theorem Ordered.enqueue (request : AcquireRequest)
    (hkeys : request.keys.Nodup) (hcall : request.call = calls)
    (hgates : ∀ key ∈ request.keys, ∃ gate, s.gates.get key = some gate) :
    (s.enqueue request).Ordered (calls + 1) := by
  rw [enqueue_eq]
  have hnew : ∀ r ∈ s.queuedRequests, r.call < request.call := fun r hr => hcall ▸ h.call_lt r hr
  refine
    { queue := fun key => ?_
      arrival := h.arrival.concat hnew
      keys_nodup := fun r hr => ?_
      call_lt := fun r hr => ?_
      granted_order := h.granted_order
      granted_first := fun g hg r hr hshare => ?_
      granted_lt := fun g hg => Nat.lt_succ_of_lt (h.granted_lt g hg)
      permit_keys := h.permit_keys }
  · have hq := h.queue key
    simp only [queueOf, OrdMap.get_modifyAll _ hkeys] at hq ⊢
    rw [filter_append, map_append, ← hq]
    by_cases hk : key ∈ request.keys
    · obtain ⟨gate, hg⟩ := hgates key hk
      simp [hk, hg]
    · simp [hk]
  · rcases mem_append.1 hr with hr | hr
    · exact h.keys_nodup r hr
    · rw [mem_singleton.1 hr]
      exact hkeys
  · rcases mem_append.1 hr with hr | hr
    · exact Nat.lt_succ_of_lt (h.call_lt r hr)
    · rw [mem_singleton.1 hr, hcall]
      exact Nat.lt_succ_self _
  · rcases mem_append.1 hr with hr | hr
    · exact h.granted_first g hg r hr hshare
    · rw [mem_singleton.1 hr, hcall]
      exact h.granted_lt g hg

end

theorem get_ensureGate (s : AccountSemaphore) (key key' : String) (limit : ℤ) :
    (s.ensureGate key limit).gates.get key' =
      if key' = key then
        some { (s.gates.get key).getD (.fresh limit) with maxConcurrency := limit }
      else s.gates.get key' := by
  unfold ensureGate
  cases hg : s.gates.get key with
  | none => simp [OrdMap.get_set, AccountGate.fresh]
  | some gate =>
    simp only [updateGate, OrdMap.get_modify, Option.getD_some]
    by_cases hk : key' = key
    · simp [hk, hg]
    · simp [hk]

theorem ensureGate_eq (s : AccountSemaphore) (key : String) (limit : ℤ) :
    s.ensureGate key limit = { s with gates := (s.ensureGate key limit).gates } := by
  unfold ensureGate
  split <;> rfl

/-- The limits of some keys have been written: all those of `keys`, if `all` says so. -/
structure Relimited (limit : String → ℤ) (keys : List String) (all : Prop)
    (s s' : AccountSemaphore) : Prop where
  rest : ∃ timers, s' = { s with gates := s'.gates, cleanupTimers := timers }
  gate : ∀ key, s'.gates.get key = s.gates.get key ∨ key ∈ keys ∧ s'.gates.get key =
    some { (s.gates.get key).getD (.fresh (limit key)) with maxConcurrency := limit key }
  all_of : all → ∀ key ∈ keys, s'.gates.get key =
    some { (s.gates.get key).getD (.fresh (limit key)) with maxConcurrency := limit key }

/-- A gate, or a fresh one, once its limit is written. -/
def relimited (limit : ℤ) (gate : Option AccountGate) : Option AccountGate :=
  some { gate.getD (.fresh limit) with maxConcurrency := limit }

theorem ensureGates_spec (enabled : OrdMap String ℤ) (maxQueueSize : ℤ) (keys : List String)
    (s : AccountSemaphore) :
    Relimited (fun key => (enabled.get key).getD 0) keys
      ((s.ensureGates enabled maxQueueSize keys).1 = none) s
      (s.ensureGates enabled maxQueueSize keys).2 := by
  induction keys generalizing s with
  | nil => exact ⟨⟨s.cleanupTimers, rfl⟩, fun _ => Or.inl rfl, fun _ => by simp⟩
  | cons key keys ih =>
    set limit : ℤ := (enabled.get key).getD 0 with hlimit
    set s₁ := (s.ensureGate key limit).clearCleanupTimer key with hs₁
    have hrest₁ : ∃ timers, s₁ = { s with gates := s₁.gates, cleanupTimers := timers } := by
      refine ⟨s₁.cleanupTimers, ?_⟩
      rw [hs₁, ensureGate_eq]
      rfl
    have hget₁ : ∀ key', s₁.gates.get key' = if key' = key then
        some { (s.gates.get key).getD (.fresh limit) with maxConcurrency := limit }
      else s.gates.get key' := fun key' => get_ensureGate s key key' limit
    have hone : ∀ key', s₁.gates.get key' = s.gates.get key' ∨ key' ∈ key :: keys ∧
        s₁.gates.get key' = relimited ((enabled.get key').getD 0) (s.gates.get key') := by
      intro key'
      rw [hget₁]
      by_cases hk : key' = key
      · subst hk
        exact Or.inr ⟨mem_cons_self, if_pos rfl⟩
      · exact Or.inl (if_neg hk)
    simp only [ensureGates]
    rw [← hlimit, ← hs₁]
    split
    · exact ⟨hrest₁, hone, by simp⟩
    · obtain ⟨hrest, hgate, hall⟩ := ih s₁
      -- Writing a limit twice is writing it once.
      have htwice : ∀ key', relimited ((enabled.get key').getD 0) (s₁.gates.get key') =
          relimited ((enabled.get key').getD 0) (s.gates.get key') := by
        intro key'
        rcases hone key' with heq | ⟨-, heq⟩ <;> rw [heq]
        rfl
      refine ⟨?_, fun key' => ?_, fun hnone key' hk => ?_⟩
      · obtain ⟨timers₁, h₁⟩ := hrest₁
        obtain ⟨timers, h⟩ := hrest
        refine ⟨timers, ?_⟩
        rw [h, h₁]
      · rcases hgate key' with heq | ⟨hk, heq⟩
        · rw [heq]
          exact hone key'
        · exact Or.inr ⟨mem_cons_of_mem _ hk, heq.trans (htwice key')⟩
      · by_cases hk' : key' ∈ keys
        · exact (hall hnone key' hk').trans (htwice key')
        · obtain rfl : key' = key := (mem_cons.1 hk).resolve_right hk'
          rcases hgate key' with heq | ⟨hk'', -⟩
          · rw [heq, hget₁, if_pos rfl]
          · exact absurd hk'' hk'

theorem Relimited.queueOf {limit : String → ℤ} {all : Prop} (h : Relimited limit keys all s s')
    (key : String) : s'.queueOf key = s.queueOf key := by
  simp only [AccountSemaphore.queueOf]
  rcases h.gate key with heq | ⟨-, heq⟩
  · rw [heq]
  · rw [heq]
    cases s.gates.get key <;> rfl

theorem Relimited.ordered {limit : String → ℤ} {all : Prop} (h : Relimited limit keys all s s')
    (hs : s.Ordered calls) : s'.Ordered calls := by
  obtain ⟨timers, heq⟩ := h.rest
  exact hs.of_eq h.queueOf (by rw [heq]) (by rw [heq]) (by rw [heq]; exact hs.permit_keys)

/-! ### Keys -/

theorem nodup_sortedKeys (enabled : OrdMap String ℤ) : (sortedKeys enabled).Nodup :=
  (perm_insertionSort _ _).nodup_iff.2 enabled.nodup

theorem mem_sortedKeys {enabled : OrdMap String ℤ} {key : String} :
    key ∈ sortedKeys enabled ↔ ∃ limit, enabled.get key = some limit := by
  rw [sortedKeys, (perm_insertionSort _ _).mem_iff, OrdMap.mem_keys]

/-! ### The five ways a call can go -/

/-- The state after the limits of a call have been written. -/
def limitsWritten (s : AccountSemaphore) (requirements : List SemaphoreRequirement)
    (options : AcquireManyOptions) : Option String × AccountSemaphore :=
  s.ensureGates (enabledLimits requirements) options.maxQueueSize
    (sortedKeys (enabledLimits requirements))

/-- The request a call makes when it has to wait. -/
def requestOf (s : AccountSemaphore) (call : ℕ) (requirements : List SemaphoreRequirement)
    (options : AcquireManyOptions) : AcquireRequest where
  call := call
  keys := sortedKeys (enabledLimits requirements)
  timeoutMs := options.timeoutMs
  due := s.now + options.timeoutMs
  signal := options.signal

/-- What `acquireMany` does, by the way the call goes. -/
inductive AcquireCase (call : ℕ) (requirements : List SemaphoreRequirement)
    (options : AcquireManyOptions) (s : AccountSemaphore) : AccountSemaphore → Prop
  /-- No requirement is enabled. -/
  | bypassed : (enabledLimits requirements).size = 0 →
      AcquireCase call requirements options s { s with granted := s.granted ++ [(call, [])] }
  | aborted (signal : ℕ) (reason : AbortReason) : (enabledLimits requirements).size ≠ 0 →
      s.aborted.find? (fun signal => some signal.1 = options.signal) = some (signal, reason) →
      AcquireCase call requirements options s (s.reject call (makeAbortError reason))
  | full (key : String) (error : AcquireError) : (enabledLimits requirements).size ≠ 0 →
      s.aborted.find? (fun signal => some signal.1 = options.signal) = none →
      (s.limitsWritten requirements options).1 = some key →
      AcquireCase call requirements options s
        ((s.limitsWritten requirements options).2.reject call error)
  | fast : (enabledLimits requirements).size ≠ 0 →
      s.aborted.find? (fun signal => some signal.1 = options.signal) = none →
      (s.limitsWritten requirements options).1 = none →
      (s.limitsWritten requirements options).2.fastPath
        (sortedKeys (enabledLimits requirements)) = true →
      AcquireCase call requirements options s
        (((s.limitsWritten requirements options).2.takeSlots
          (sortedKeys (enabledLimits requirements))).resolve call
            (sortedKeys (enabledLimits requirements)))
  | queued : (enabledLimits requirements).size ≠ 0 →
      s.aborted.find? (fun signal => some signal.1 = options.signal) = none →
      (s.limitsWritten requirements options).1 = none →
      (s.limitsWritten requirements options).2.fastPath
        (sortedKeys (enabledLimits requirements)) = false →
      AcquireCase call requirements options s
        ((s.limitsWritten requirements options).2.enqueue
          (s.requestOf call requirements options)).drainQueues

theorem acquireManyAs_cases (call : ℕ) (requirements : List SemaphoreRequirement)
    (options : AcquireManyOptions) (s : AccountSemaphore) :
    AcquireCase call requirements options s (s.acquireManyAs call requirements options) := by
  have hrel := ensureGates_spec (enabledLimits requirements) options.maxQueueSize
    (sortedKeys (enabledLimits requirements)) s
  obtain ⟨timers, hrest⟩ := hrel.rest
  simp only [acquireManyAs]
  split
  · next hsize => exact .bypassed hsize
  · next hsize =>
    split
    · next signal reason hab => exact .aborted signal reason hsize hab
    · next hab =>
      split
      · next key s' hens =>
        have h1 : (s.limitsWritten requirements options) = (some key, s') := hens
        have hcase := @AcquireCase.full call requirements options s key
          (.semaphore "SEMAPHORE_QUEUE_FULL"
            s!"Semaphore queue full ({options.maxQueueSize}) for {key}") hsize hab
          (congrArg Prod.fst h1)
        rwa [h1] at hcase
      · next s' hens =>
        have h1 : (s.limitsWritten requirements options) = (none, s') := hens
        split
        · next hfast =>
          have hcase := @AcquireCase.fast call requirements options s hsize hab
            (congrArg Prod.fst h1) (by rw [h1]; exact hfast)
          rwa [h1] at hcase
        · next hfast =>
          have hcase := @AcquireCase.queued call requirements options s hsize hab
            (congrArg Prod.fst h1) (by rw [h1]; simpa using hfast)
          rw [h1] at hcase
          have hnow : s'.now = s.now := by
            have hnow := congrArg AccountSemaphore.now hrest
            rwa [show (s.ensureGates _ _ _).2 = s' from congrArg Prod.snd hens] at hnow
          simpa only [requestOf, hnow] using hcase

end AccountSemaphore

end OmniRoute
