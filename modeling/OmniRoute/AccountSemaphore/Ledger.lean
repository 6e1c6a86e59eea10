import OmniRoute.AccountSemaphore.Order

/-!
# The ledger of the account semaphore

Every key has one limit `k key`, whatever call asks for it. The counter of a gate should be the
number of permits on its key that were granted since the last reset of the key and have not been
released (`Balanced`). A release function addresses its gates by key, though, and a gate that was
made after a reset answers to the same key.

**Main result (`balanced_iff`).** The counters are right and no limit is exceeded, throughout a
run, exactly when no permit is released whose key was reset after the grant while the key has
slots taken.
-/

namespace OmniRoute

open Numbered List Option OrdMap

namespace AccountSemaphore

variable {calls : ℕ} {s s' : AccountSemaphore} {k : String → ℕ}

/-- The counter of the gate of a key. -/
def runningOf (s : AccountSemaphore) (key : String) : ℕ :=
  ((s.gates.get key).map (·.running)).getD 0

/-- Permits on a key granted since its last reset and not released. -/
def outstanding (s : AccountSemaphore) (key : String) : ℕ := s.permits.countP (key ∈ ·.current)

/-- The counter of a key is the number of its permits, and within the limit. -/
def BalancedAt (k : String → ℕ) (key : String) (s : AccountSemaphore) : Prop :=
  s.runningOf key = s.outstanding key ∧ s.outstanding key ≤ k key

def Balanced (k : String → ℕ) (s : AccountSemaphore) : Prop := ∀ key, s.BalancedAt k key

/-- A gate somebody waits at has the limit of its key, and a permit is on keys it has. -/
structure Limited (k : String → ℕ) (s : AccountSemaphore) : Prop where
  limit : ∀ {key gate}, s.gates.get key = some gate → gate.queue ≠ [] →
    gate.maxConcurrency = k key
  current : ∀ p ∈ s.permits, p.current ⊆ p.keys

/-! ## Admissions -/

theorem runningOf_takeSlots {keys : List String} (hkeys : keys.Nodup)
    (hgates : ∀ key ∈ keys, ∃ gate, s.gates.get key = some gate) (key : String) :
    runningOf { s with gates := s.gates.modifyAll keys takeSlot } key =
      s.runningOf key + if key ∈ keys then 1 else 0 := by
  simp only [runningOf, get_modifyAll _ hkeys]
  split
  · next hk =>
    obtain ⟨gate, hg⟩ := hgates key hk
    simp [hg, takeSlot]
  · rfl

theorem outstanding_grant (s : AccountSemaphore) (call : ℕ) (keys : List String) (key : String) :
    (s.permits ++ [(⟨call, keys, keys⟩ : Permit)]).countP (fun p => key ∈ p.current) =
      s.outstanding key + if key ∈ keys then 1 else 0 := by
  simp only [outstanding, countP_append, countP_singleton, decide_eq_true_eq]

variable {request : AcquireRequest}

/-- One admission adds one on both sides of the ledger. -/
theorem admit_ledger (h : s.Ordered calls) (hr : request ∈ s.queuedRequests) (key : String) :
    (s.admitQueued request).runningOf key =
        s.runningOf key + (if key ∈ request.keys then 1 else 0) ∧
      (s.admitQueued request).outstanding key =
        s.outstanding key + if key ∈ request.keys then 1 else 0 := by
  obtain ⟨timers, heq⟩ := admit_eq request s
  rw [heq]
  refine ⟨?_, outstanding_grant s request.call request.keys key⟩
  simp only [runningOf, get_modifyAll _ (h.keys_nodup request hr)]
  split
  · next hk =>
    obtain ⟨gate, hg, -⟩ := h.gate_of_mem hr hk
    simp [hg, dequeue, takeSlot]
  · rfl

theorem Limited.admitQueued (hl : s.Limited k) (h : s.Ordered calls)
    (hr : request ∈ s.queuedRequests) : (s.admitQueued request).Limited k := by
  obtain ⟨timers, heq⟩ := admit_eq request s
  rw [heq]
  refine ⟨fun {key gate} hg hq => ?_, fun p hp => ?_⟩
  · simp only [get_modifyAll _ (h.keys_nodup request hr)] at hg
    split at hg
    · simp only [Option.map_map, map_eq_some_iff, Function.comp] at hg
      obtain ⟨gate₀, hg₀, rfl⟩ := hg
      have hq₀ : gate₀.queue ≠ [] := fun hnil => hq (by simp [takeSlot, dequeue, hnil])
      exact (hl.limit hg₀ hq₀ : gate₀.maxConcurrency = k key)
    · exact hl.limit hg hq
  · rcases mem_append.1 hp with hp | hp
    · exact hl.current p hp
    · rw [mem_singleton.1 hp]
      exact Subset.refl _

variable {key : String}

theorem admit_balancedAt (hl : s.Limited k) (h : s.Ordered calls) (hr : request ∈ s.queuedRequests)
    (hcan : s.canAcquire request = true) (hb : s.BalancedAt k key) :
    (s.admitQueued request).BalancedAt k key := by
  obtain ⟨hrun, hout⟩ := admit_ledger h hr key
  obtain ⟨heq, hle⟩ := hb
  refine ⟨by omega, ?_⟩
  rw [hout]
  split
  · next hk =>
    obtain ⟨gate, hg, hmem⟩ := h.gate_of_mem hr hk
    have hall := List.all_eq_true.1 hcan key hk
    simp only [hg, AccountGate.hasRoom, Bool.and_eq_true, decide_eq_true_eq] at hall
    have hmax := hl.limit hg (ne_nil_of_mem hmem)
    have hrunning : s.runningOf key = gate.running := by simp [runningOf, hg]
    omega
  · exact hle

/-- A drain adds as much to the counter of a key as to its permits. -/
theorem drainQueues_gap (h : s.Ordered calls) (key : String) :
    s.drainQueues.runningOf key + s.outstanding key =
      s.runningOf key + s.drainQueues.outstanding key := by
  refine (drainQueues_induct (I := fun t => t.Ordered calls ∧
    t.runningOf key + s.outstanding key = s.runningOf key + t.outstanding key) ?_ ⟨h, rfl⟩).2
  rintro t request ⟨ht, hgap⟩ hr hcan
  obtain ⟨hrun, hout⟩ := admit_ledger ht hr key
  exact ⟨ht.admitQueued hr hcan, by omega⟩

theorem Limited.drainQueues (hl : s.Limited k) (h : s.Ordered calls) : s.drainQueues.Limited k :=
  (drainQueues_induct (I := fun t => t.Ordered calls ∧ t.Limited k)
    (fun _ _ ⟨ht, hl⟩ hr hcan => ⟨ht.admitQueued hr hcan, hl.admitQueued ht hr⟩) ⟨h, hl⟩).2

theorem drainQueues_balancedAt (hl : s.Limited k) (h : s.Ordered calls) (hb : s.BalancedAt k key) :
    s.drainQueues.BalancedAt k key := by
  refine (drainQueues_induct (I := fun t => t.Ordered calls ∧ t.Limited k ∧ t.BalancedAt k key) ?_
    ⟨h, hl, hb⟩).2.2
  rintro t request ⟨ht, hl, hb⟩ hr hcan
  exact ⟨ht.admitQueued hr hcan, hl.admitQueued ht hr, admit_balancedAt hl ht hr hcan hb⟩

/-- A drain makes no gate. -/
theorem drainQueues_get_none (h : s.Ordered calls) (hg : s.gates.get key = none) :
    s.drainQueues.gates.get key = none := by
  refine (drainQueues_induct (I := fun t => t.Ordered calls ∧ t.gates.get key = none) ?_
    ⟨h, hg⟩).2
  rintro t request ⟨ht, hg⟩ hr hcan
  obtain ⟨timers, heq⟩ := admit_eq request t
  refine ⟨ht.admitQueued hr hcan, ?_⟩
  rw [heq]
  simp only [get_modifyAll _ (ht.keys_nodup request hr), hg]
  simp

/-! ## What leaves the ledger alone -/

/-- Counters and permits stand, and gates somebody waits at keep their limits. -/
structure Quiet (k : String → ℕ) (s s' : AccountSemaphore) : Prop where
  running : ∀ key, s'.runningOf key = s.runningOf key
  permits : s'.permits = s.permits
  limited : s.Limited k → s'.Limited k

theorem Quiet.balancedAt (h : Quiet k s s') (hb : s.BalancedAt k key) : s'.BalancedAt k key := by
  unfold BalancedAt outstanding at hb ⊢
  rw [h.running, h.permits]
  exact hb

theorem Quiet.trans {s'' : AccountSemaphore} (h : Quiet k s s') (h' : Quiet k s' s'') :
    Quiet k s s'' :=
  ⟨fun key => (h'.running key).trans (h.running key), h'.permits.trans h.permits,
    fun hl => h'.limited (h.limited hl)⟩

theorem Quiet.of_eq (hg : s'.gates = s.gates) (hp : s'.permits = s.permits) : Quiet k s s' :=
  ⟨fun key => by rw [runningOf, hg, runningOf], hp,
    fun hl => ⟨fun hgate hq => hl.limit (hg ▸ hgate) hq, fun p hmem => hl.current p (hp ▸ hmem)⟩⟩

/-- Every gate is as it was, or was made anew, save for block, queue and limit; the limit of a
gate with a queue is that of its key. -/
theorem Quiet.of_gates (hp : s'.permits = s.permits)
    (hg : ∀ key, s'.runningOf key = s.runningOf key ∧ ∀ gate, s'.gates.get key = some gate →
      gate.queue ≠ [] → gate.maxConcurrency = k key ∨ ∃ gate₀, s.gates.get key = some gate₀ ∧
        gate₀.queue ≠ [] ∧ gate.maxConcurrency = gate₀.maxConcurrency) : Quiet k s s' where
  running key := (hg key).1
  permits := hp
  limited hl := ⟨fun {key gate} hgate hq => by
      rcases (hg key).2 gate hgate hq with heq | ⟨gate₀, hg₀, hq₀, heq⟩
      · exact heq
      · exact heq.trans (hl.limit hg₀ hq₀),
    fun p hmem => hl.current p (hp ▸ hmem)⟩

theorem Sheds.quiet (h : Sheds s s') : Quiet k s s' := by
  obtain ⟨queued, timers, -, heq⟩ := h.rest
  refine .of_gates (by rw [heq]) fun key => ?_
  obtain ⟨queue, hsub, hgate⟩ := h.gate key
  constructor
  · simp only [runningOf, hgate]
    cases s.gates.get key <;> rfl
  · intro gate hg hq
    rw [hgate, map_eq_some_iff] at hg
    obtain ⟨gate₀, hg₀, rfl⟩ := hg
    refine Or.inr ⟨gate₀, hg₀, fun hnil => hq ?_, rfl⟩
    have hnil' : s.queueOf key = [] := by simp [queueOf, hg₀, hnil]
    exact sublist_nil.1 (hnil' ▸ hsub)

theorem Relimited.quiet {limit : String → ℤ} {keys : List String} {all : Prop}
    (h : Relimited limit keys all s s') (hlim : ∀ key ∈ keys, limit key = k key) :
    Quiet k s s' := by
  obtain ⟨timers, heq⟩ := h.rest
  refine .of_gates (by rw [heq]) fun key => ?_
  rcases h.gate key with hgate | ⟨hk, hgate⟩
  · exact ⟨by rw [runningOf, hgate, runningOf],
      fun gate hg hq => Or.inr ⟨gate, hgate ▸ hg, hq, rfl⟩⟩
  · constructor
    · simp only [runningOf, hgate]
      cases s.gates.get key <;> rfl
    · intro gate hg _
      obtain rfl := some.inj (hgate.symm.trans hg)
      exact Or.inl (hlim key hk)

theorem enqueue_quiet (request : AcquireRequest) (hkeys : request.keys.Nodup)
    (hmax : ∀ key ∈ request.keys, ∃ gate, s.gates.get key = some gate ∧
      gate.maxConcurrency = k key) : Quiet k s (s.enqueue request) := by
  rw [enqueue_eq]
  refine .of_gates rfl fun key => ?_
  simp only [runningOf, get_modifyAll _ hkeys]
  by_cases hk : key ∈ request.keys
  · obtain ⟨gate₀, hg₀, hmax₀⟩ := hmax key hk
    simp only [hk, if_true, hg₀]
    refine ⟨rfl, fun gate hg _ => Or.inl ?_⟩
    cases hg
    exact hmax₀
  · simp only [hk, if_false]
    exact ⟨trivial, fun gate hg hq => Or.inr ⟨gate, hg, hq, rfl⟩⟩

theorem markBlocked_quiet (key : String) («until» : BlockUntil) (s : AccountSemaphore) :
    Quiet k s (s.markBlocked key «until») := by
  rcases markBlocked_cases key «until» s with heq | ⟨untilMs, timers, gates, -, heq, hget⟩
  · rw [heq]
    exact .of_eq rfl rfl
  · rw [heq]
    refine .of_gates rfl fun key' => ?_
    simp only [runningOf, hget]
    by_cases hk : key' = key
    · subst hk
      simp only [if_true]
      cases hg : s.gates.get key' with
      | none =>
        refine ⟨rfl, fun gate hgate hq => ?_⟩
        cases hgate
        exact absurd rfl hq
      | some gate₀ =>
        refine ⟨rfl, fun gate hgate hq => Or.inr ⟨gate₀, rfl, ?_⟩⟩
        cases hgate
        exact ⟨hq, rfl⟩
    · simp only [hk, if_false]
      exact ⟨trivial, fun gate hg hq => Or.inr ⟨gate, hg, hq, rfl⟩⟩

theorem clearBlock_quiet (key : String) (s : AccountSemaphore) :
    Quiet k s (s.updateGate key fun gate => { gate with blockedUntil := none }) := by
  refine .of_gates rfl fun key' => ?_
  simp only [runningOf, updateGate, get_modify]
  by_cases hk : key' = key
  · subst hk
    simp only [if_true]
    cases hg : s.gates.get key' with
    | none => exact ⟨rfl, by simp⟩
    | some gate₀ =>
      refine ⟨rfl, fun gate hgate hq => Or.inr ⟨gate₀, rfl, ?_⟩⟩
      cases hgate
      exact ⟨hq, rfl⟩
  · simp only [hk, if_false]
    exact ⟨trivial, fun gate hg hq => Or.inr ⟨gate, hg, hq, rfl⟩⟩

theorem cleanupGateIfIdle_quiet (key : String) (s : AccountSemaphore) :
    Quiet k s (s.cleanupGateIfIdle key) := by
  rcases cleanupGateIfIdle_cases key s with heq | ⟨gate₀, timers, hg₀, hrun, -, heq⟩
  · rw [heq]
    exact .of_eq rfl rfl
  · rw [heq]
    refine .of_gates rfl fun key' => ?_
    simp only [runningOf, get_delete]
    by_cases hk : key' = key
    · subst hk
      simp [hg₀, hrun]
    · simp only [hk, if_false]
      exact ⟨trivial, fun gate hg hq => Or.inr ⟨gate, hg, hq, rfl⟩⟩

/-! ## The operations -/

/-- Every call asks for `k key` slots of a key. -/
def FixedLimits (k : String → ℕ) : Event → Prop
  | .acquireMany requirements _ => ∀ r ∈ requirements, isBypassed r.maxConcurrency = false →
      trunc (r.maxConcurrency.getD 0) = k r.key
  | _ => True

variable {requirements : List SemaphoreRequirement}

theorem enabledLimits_fixed (h : ∀ r ∈ requirements, isBypassed r.maxConcurrency = false →
      trunc (r.maxConcurrency.getD 0) = k r.key) {limit : ℤ}
    (hg : (enabledLimits requirements).get key = some limit) : limit = k key := by
  have hfold : ∀ (requirements : List SemaphoreRequirement) (enabled : OrdMap String ℤ),
      (∀ r ∈ requirements, isBypassed r.maxConcurrency = false →
        trunc (r.maxConcurrency.getD 0) = k r.key) →
      (∀ key limit, enabled.get key = some limit → limit = k key) →
      ∀ key limit, (requirements.foldl (fun enabled requirement =>
        if isBypassed requirement.maxConcurrency then enabled
        else
          let limit := trunc (requirement.maxConcurrency.getD 0)
          enabled.set requirement.key (min ((enabled.get requirement.key).getD limit) limit))
        enabled).get key = some limit → limit = k key := by
    intro requirements
    induction requirements with
    | nil => exact fun enabled _ henabled => henabled
    | cons r rs ih =>
      intro enabled hrs henabled
      obtain ⟨hr, hrs⟩ := forall_mem_cons.1 hrs
      refine ih _ hrs fun key limit hget => ?_
      dsimp only at hget
      split at hget
      · exact henabled key limit hget
      · next hby =>
        have htr := hr (by simpa using hby)
        rw [get_set] at hget
        split at hget
        · next hk =>
          subst hk
          cases hget
          rw [htr]
          cases hold : enabled.get r.key with
          | none => simp
          | some limit =>
            rw [henabled _ _ hold]
            simp
        · exact henabled key limit hget
  exact hfold requirements .empty h (fun key limit hg => by simp at hg) key limit hg

theorem limitsWritten_quiet {options : AcquireManyOptions}
    (h : FixedLimits k (.acquireMany requirements options)) :
    Quiet k s (s.limitsWritten requirements options).2 := by
  refine (ensureGates_spec (enabledLimits requirements) options.maxQueueSize
    (sortedKeys (enabledLimits requirements)) s).quiet fun key hk => ?_
  obtain ⟨limit, hg⟩ := mem_sortedKeys.1 hk
  rw [hg]
  exact enabledLimits_fixed h hg

/-- A call keeps the ledger of every key. -/
theorem acquireManyAs_ledger (hl : s.Limited k) (hs : s.Ordered calls)
    {options : AcquireManyOptions} (h : FixedLimits k (.acquireMany requirements options)) :
    (s.acquireManyAs calls requirements options).Limited k ∧
      ∀ key, s.BalancedAt k key →
        (s.acquireManyAs calls requirements options).BalancedAt k key := by
  set written := (s.limitsWritten requirements options).2
  have hrel := ensureGates_spec (enabledLimits requirements) options.maxQueueSize
    (sortedKeys (enabledLimits requirements)) s
  have hw : written.Ordered calls := hrel.ordered hs
  have hquiet : Quiet k s written := limitsWritten_quiet h
  have hnodup := nodup_sortedKeys (enabledLimits requirements)
  have hcase := acquireManyAs_cases calls requirements options s
  generalize s.acquireManyAs calls requirements options = t at hcase ⊢
  cases hcase with
  | bypassed =>
    have hq : Quiet k s { s with granted := s.granted ++ [(calls, [])] } := .of_eq rfl rfl
    exact ⟨hq.limited hl, fun _ => hq.balancedAt⟩
  | aborted signal reason =>
    have hq : Quiet k s (s.reject calls (makeAbortError reason)) := .of_eq rfl rfl
    exact ⟨hq.limited hl, fun _ => hq.balancedAt⟩
  | full key error =>
    have hq : Quiet k written
        (written.reject calls error) := .of_eq rfl rfl
    exact ⟨(hquiet.trans hq).limited hl, fun _ => (hquiet.trans hq).balancedAt⟩
  | fast hsize hab hens hfast =>
    have hlw := hquiet.limited hl
    have hgate : ∀ key ∈ sortedKeys (enabledLimits requirements), ∃ gate,
        written.gates.get key = some gate ∧
          gate.hasRoom written.now = true := fun key hk =>
      (fastPath_spec hw hfast hk).1
    rw [takeSlots_eq]
    refine ⟨⟨fun {key gate} hg hq => ?_, fun p hp => ?_⟩, fun key hb => ?_⟩
    · simp only [resolve, get_modifyAll _ hnodup] at hg
      split at hg
      · obtain ⟨gate₀, hg₀, rfl⟩ := map_eq_some_iff.1 hg
        exact (hlw.limit hg₀ hq : gate₀.maxConcurrency = k key)
      · exact hlw.limit hg hq
    · rcases mem_append.1 hp with hp | hp
      · exact hlw.current p hp
      · rw [mem_singleton.1 hp]
        exact Subset.refl _
    · obtain ⟨heq, hle⟩ := hquiet.balancedAt hb
      have hrun := runningOf_takeSlots hnodup (fun key hk => (hgate key hk).imp fun _ => And.left)
        key
      have hout := outstanding_grant written calls
        (sortedKeys (enabledLimits requirements)) key
      refine ⟨(hrun.trans (by rw [heq])).trans hout.symm, hout.trans_le ?_⟩
      split
      · next hk =>
        obtain ⟨gate, hg, hroom⟩ := hgate key hk
        have hgw := hrel.all_of hens key hk
        have hmax : gate.maxConcurrency = (k key : ℤ) := by
          obtain ⟨limit, hlim⟩ := mem_sortedKeys.1 hk
          rw [some.inj (hg.symm.trans hgw)]
          show (OrdMap.get _ key).getD 0 = _
          rw [hlim]
          exact enabledLimits_fixed h hlim
        have hrunning : written.runningOf key = gate.running := by
          simp [runningOf, hg]
        simp only [AccountGate.hasRoom, decide_eq_true_eq] at hroom
        omega
      · exact hle
  | queued hsize hab hens hslow =>
    have hgates : ∀ key ∈ sortedKeys (enabledLimits requirements), ∃ gate,
        written.gates.get key = some gate ∧
          gate.maxConcurrency = k key := by
      intro key hk
      obtain ⟨limit, hg⟩ := mem_sortedKeys.1 hk
      refine ⟨_, hrel.all_of hens key hk, ?_⟩
      show (OrdMap.get _ key).getD 0 = _
      rw [hg]
      exact enabledLimits_fixed h hg
    have hord := hw.enqueue (s.requestOf calls requirements options) hnodup rfl
      fun key hk => (hgates key hk).imp fun _ => And.left
    have hq := hquiet.trans (enqueue_quiet (s.requestOf calls requirements options) hnodup hgates)
    exact ⟨(hq.limited hl).drainQueues hord,
      fun key hb => drainQueues_balancedAt (hq.limited hl) hord (hq.balancedAt hb)⟩

variable {permit : Permit}

/-- What a release does to the ledger before it drains. -/
theorem giveBack_ledger (hkeys : permit.keys.Nodup) (hp : permit ∈ s.permits) (key : String) :
    (s.giveBack permit).runningOf key = s.runningOf key - (if key ∈ permit.keys then 1 else 0) ∧
      s.outstanding key =
        (s.giveBack permit).outstanding key + if key ∈ permit.current then 1 else 0 := by
  constructor
  · simp only [runningOf, giveBack, get_modifyAll _ hkeys]
    split
    · cases hg : s.gates.get key with
      | none => simp
      | some gate =>
        simp only [map_some, getD_some, giveSlot]
        split
        · rfl
        · next hpos => simp only [Nat.eq_zero_of_not_pos hpos]
    · rfl
  · simp only [outstanding, giveBack, countP_erase, hp, true_and, decide_eq_true_eq]
    split
    · next hk =>
      have hpos : 0 < s.permits.countP (fun p => key ∈ p.current) :=
        countP_pos_iff.2 ⟨permit, hp, by simpa using hk⟩
      omega
    · rfl

section

variable (hl : s.Limited k)
include hl

theorem Limited.giveBack (hkeys : permit.keys.Nodup) : (s.giveBack permit).Limited k := by
  refine ⟨fun {key gate} hg hq => ?_, fun p hmem => hl.current p (mem_of_mem_erase hmem)⟩
  simp only [AccountSemaphore.giveBack, get_modifyAll _ hkeys] at hg
  split at hg
  · obtain ⟨gate₀, hg₀, rfl⟩ := map_eq_some_iff.1 hg
    have hgive : (giveSlot gate₀).queue = gate₀.queue ∧
        (giveSlot gate₀).maxConcurrency = gate₀.maxConcurrency := by
      unfold giveSlot
      split <;> exact ⟨rfl, rfl⟩
    have hq₀ : gate₀.queue ≠ [] := hgive.1 ▸ hq
    exact hgive.2.trans (hl.limit hg₀ hq₀)
  · exact hl.limit hg hq

section

variable (hs : s.Ordered calls)
include hs

theorem Limited.release (hp : permit ∈ s.permits) : (s.release permit).Limited k := by
  obtain ⟨timers, heq⟩ := release_eq permit s
  have hdrain := (hl.giveBack (hs.permit_keys permit hp)).drainQueues (hs.giveBack hp)
  rw [heq]
  exact ⟨hdrain.limit, hdrain.current⟩

/-- **A release keeps the ledger exactly when no key of the permit has been reset since the grant
and has slots taken.** -/
theorem release_balanced_iff (hp : permit ∈ s.permits) (hb : s.Balanced k) :
    (s.release permit).Balanced k ↔
      ¬ ∃ key ∈ permit.keys, key ∉ permit.current ∧ 0 < s.runningOf key := by
  have hkeys := hs.permit_keys permit hp
  have hord := hs.giveBack hp
  have hrel : (s.release permit).Balanced k ↔ (s.giveBack permit).drainQueues.Balanced k := by
    obtain ⟨timers, heq⟩ := release_eq permit s
    rw [heq]
    rfl
  rw [hrel]
  constructor
  · rintro hb' ⟨key, hk, hnot, hpos⟩
    obtain ⟨hrun, hout⟩ := giveBack_ledger hkeys hp key
    have hgap := drainQueues_gap hord key
    have hbefore := (hb key).1
    have hafter := (hb' key).1
    simp only [hk, hnot, if_true, if_false] at hrun hout
    omega
  · intro hno key
    refine drainQueues_balancedAt (hl.giveBack hkeys) hord ?_
    obtain ⟨hrun, hout⟩ := giveBack_ledger hkeys hp key
    obtain ⟨hbal, hle⟩ := hb key
    refine ⟨?_, by omega⟩
    by_cases hk : key ∈ permit.keys
    · by_cases hc : key ∈ permit.current
      · simp only [hk, hc, if_true] at hrun hout
        omega
      · have hzero : ¬ 0 < s.runningOf key := fun hpos => hno ⟨key, hk, hc, hpos⟩
        simp only [hk, hc, if_true, if_false] at hrun hout
        omega
    · have hc : key ∉ permit.current := fun hc => hk (hl.current permit hp hc)
      simp only [hk, hc, if_false] at hrun hout
      omega

/-- A request is removed, its promise is rejected, and the queues are drained. -/
theorem removed_ledger (hr : request ∈ s.queuedRequests) (error : AcquireError) :
    ((s.removeRequest request).reject request.call error).drainQueues.Limited k ∧
      ∀ key, s.BalancedAt k key →
        ((s.removeRequest request).reject request.call error).drainQueues.BalancedAt k key := by
  have hq : Quiet k s ((s.removeRequest request).reject request.call error) :=
    (removeRequest_sheds (hs.keys_nodup request hr) s).quiet.trans (.of_eq rfl rfl)
  have hord := (hs.removeRequest hr).reject request.call error
  exact ⟨(hq.limited hl).drainQueues hord,
    fun key hb => drainQueues_balancedAt (hq.limited hl) hord (hq.balancedAt hb)⟩

theorem abort_ledger (signal : ℕ) (reason : AbortReason) :
    (s.abort signal reason).Limited k ∧
      ∀ key, s.BalancedAt k key → (s.abort signal reason).BalancedAt k key := by
  have hfold : ∀ (requests : List AcquireRequest) (s : AccountSemaphore), s.Limited k →
      s.Ordered calls →
      (requests.foldl (abortRequest (makeAbortError reason)) s).Limited k ∧
        ∀ key, s.BalancedAt k key →
          (requests.foldl (abortRequest (makeAbortError reason)) s).BalancedAt k key := by
    intro requests
    induction requests with
    | nil => exact fun s hl _ => ⟨hl, fun _ hb => hb⟩
    | cons request requests ih =>
      intro s hl hs
      have hone : (s.abortRequest (makeAbortError reason) request).Limited k ∧
          ∀ key, s.BalancedAt k key →
            (s.abortRequest (makeAbortError reason) request).BalancedAt k key := by
        unfold abortRequest
        split
        · next hr => exact removed_ledger hl hs hr _
        · exact ⟨hl, fun _ hb => hb⟩
      obtain ⟨hl', hb'⟩ := ih _ hone.1 (hs.abortRequest _ request)
      exact ⟨hl', fun key hb => hb' key (hone.2 key hb)⟩
  have hq : Quiet k s { s with aborted := s.aborted ++ [(signal, reason)] } := .of_eq rfl rfl
  have hord : Ordered calls { s with aborted := s.aborted ++ [(signal, reason)] } :=
    hs.of_eq (fun _ => rfl) rfl rfl hs.permit_keys
  obtain ⟨hl', hb'⟩ := hfold (s.queuedRequests.filter (·.signal = some signal)) _
    (hq.limited hl) hord
  exact ⟨hl', fun key hb => hb' key (hq.balancedAt hb)⟩

end

omit hl in
theorem outstanding_forget (key key' : String) (s : AccountSemaphore) :
    (s.forget key).outstanding key' = if key' = key then 0 else s.outstanding key' := by
  simp only [outstanding, forget, countP_map]
  split
  · next hk =>
    subst hk
    exact countP_eq_zero.2 fun p _ => by simp
  · next hk => exact countP_congr fun p _ => by simp [hk]

theorem Limited.forget (key : String) : (s.forget key).Limited k := by
  refine ⟨fun hg hq => hl.limit hg hq, fun p hp => ?_⟩
  obtain ⟨p₀, hp₀, rfl⟩ := List.mem_map.1 hp
  exact fun key' hk => hl.current p₀ hp₀ (mem_of_mem_filter hk)

/-- The other keys of a reset, before it drains. -/
theorem reset_others {s₁ : AccountSemaphore} (hp : s₁.permits = s.permits)
    (hg : ∀ key', if key' = key then s₁.gates.get key' = none
      else ∃ queue, queue.Sublist (s.queueOf key') ∧
        s₁.gates.get key' = (s.gates.get key').map fun gate => { gate with queue := queue }) : 
    s₁.Limited k ∧ ∀ key', key' ≠ key → s.BalancedAt k key' → s₁.BalancedAt k key' := by
  refine ⟨⟨fun {key' gate} hget hq => ?_, hp ▸ hl.current⟩, fun key' hk hb => ?_⟩
  · have hk := hg key'
    split at hk
    · simp [hk] at hget
    · obtain ⟨queue, hsub, hgate⟩ := hk
      obtain ⟨gate₀, hg₀, rfl⟩ := map_eq_some_iff.1 (hgate ▸ hget)
      have hq₀ : gate₀.queue ≠ [] := by
        intro hnil
        have hnil' : s.queueOf key' = [] := by simp [queueOf, hg₀, hnil]
        exact hq (sublist_nil.1 (hnil' ▸ hsub))
      exact (hl.limit hg₀ hq₀ : gate₀.maxConcurrency = k key')
  · obtain ⟨queue, -, hgate⟩ := (if_neg hk).mp (hg key')
    unfold BalancedAt outstanding runningOf at hb ⊢
    rw [hp, hgate]
    cases hg₀ : s.gates.get key' <;> simpa [hg₀] using hb

theorem Limited.reset (hs : s.Ordered calls) (key : String) : (s.reset key).Limited k := by
  cases hg : s.gates.get key with
  | none => simpa [AccountSemaphore.reset, hg] using hl
  | some gate =>
    obtain ⟨s₁, heq, hord, hp, -, -, -, -, -, hgates⟩ := reset_eq hs hg
    rw [heq]
    exact (reset_others hl hp hgates).1.drainQueues hord

end

/-- A reset keeps the ledger of the other keys, and clears that of its own. -/
theorem Balanced.reset (hb : s.Balanced k) (hl : s.Limited k) (hs : s.Ordered calls)
    (key : String) : ((s.reset key).forget key).Balanced k := by
  have hrest : (s.reset key).runningOf key = 0 ∧
      ∀ key', key' ≠ key → (s.reset key).BalancedAt k key' := by
    cases hg : s.gates.get key with
    | none =>
      have heq : s.reset key = s := by simp [AccountSemaphore.reset, hg]
      rw [heq]
      exact ⟨by simp [runningOf, hg], fun key' _ => hb key'⟩
    | some gate =>
      obtain ⟨s₁, heq, hord, hp, -, -, -, -, -, hgates⟩ := reset_eq hs hg
      obtain ⟨hl₁, hb₁⟩ := reset_others hl hp hgates
      have hnone : s₁.gates.get key = none := by simpa using hgates key
      rw [heq]
      refine ⟨by simp [runningOf, drainQueues_get_none hord hnone], fun key' hk => ?_⟩
      exact drainQueues_balancedAt hl₁ hord (hb₁ key' hk (hb key'))
  intro key'
  unfold BalancedAt
  rw [outstanding_forget]
  by_cases hk : key' = key
  · subst hk
    simp only [if_true]
    exact ⟨hrest.1, Nat.zero_le _⟩
  · simp only [hk, if_false]
    exact hrest.2 key' hk

/-! ## Runs -/

/-- A release function is called, one of whose keys was reset after the grant and has slots
taken since. -/
def FreesStaleSlot (s : AccountSemaphore) : Event → Prop
  | .release call => ∃ permit, s.permits.find? (·.call = call) = some permit ∧
      ∃ key ∈ permit.keys, key ∉ permit.current ∧ 0 < s.runningOf key
  | _ => False

/-- The step lemma: the ledger stays right exactly when no stale slot is freed. -/
theorem step_balanced_iff (hs : s.Sound) (hl : s.Limited k) {e : Event} (he : FixedLimits k e)
    (h : s.step e = some s') :
    s'.Limited k ∧ (s.Balanced k → (s'.Balanced k ↔ ¬ s.FreesStaleSlot e)) := by
  have hord : s.Ordered s.calls := hs
  -- Every event but a release keeps the ledger.
  have hkeep : (∀ call, e ≠ .release call) → s'.Limited k →
      (s.Balanced k → s'.Balanced k) →
      s'.Limited k ∧ (s.Balanced k → (s'.Balanced k ↔ ¬ s.FreesStaleSlot e)) := by
    intro hne hl' hb'
    refine ⟨hl', fun hb => iff_of_true (hb' hb) fun hfree => ?_⟩
    cases e with
    | release call => exact hne call rfl
    | _ => exact hfree
  have hquiet : (∀ call, e ≠ .release call) → Quiet k s s' →
      s'.Limited k ∧ (s.Balanced k → (s'.Balanced k ↔ ¬ s.FreesStaleSlot e)) := fun hne hq =>
    hkeep hne (hq.limited hl) fun hb key => hq.balancedAt (hb key)
  cases e with
  | acquireMany requirements options =>
    cases h
    obtain ⟨hl', hb'⟩ := acquireManyAs_ledger hl hord he
    exact hkeep (by simp) ⟨hl'.limit, hl'.current⟩ fun hb key => hb' key (hb key)
  | release call =>
    simp only [step] at h
    split at h
    · next permit hfind =>
      cases h
      have hp := mem_of_find?_eq_some hfind
      refine ⟨hl.release hord hp, fun hb => ?_⟩
      rw [release_balanced_iff hl hord hp hb]
      simp [FreesStaleSlot, hfind]
    · next hnone =>
      split at h
      · cases h
        refine ⟨hl, fun hb => iff_of_true hb ?_⟩
        rintro ⟨permit, hfind, -⟩
        simp [hnone] at hfind
      · cases h
  | timeout request =>
    obtain ⟨⟨hr, -⟩, h⟩ := ite_none_right_eq_some.1 h
    cases h
    obtain ⟨hl', hb'⟩ := removed_ledger (k := k) hl hord hr _
    exact hkeep (by simp) hl' fun hb key => hb' key (hb key)
  | abort signal reason =>
    obtain ⟨-, h⟩ := ite_none_left_eq_some.1 h
    cases h
    obtain ⟨hl', hb'⟩ := abort_ledger hl hord signal reason
    exact hkeep (by simp) hl' fun hb key => hb' key (hb key)
  | markBlocked key «until» =>
    cases h
    exact hquiet (by simp) (markBlocked_quiet key «until» s)
  | unblock key =>
    cases h
    unfold unblock
    split
    · exact ⟨hl, fun hb => iff_of_true hb id⟩
    · have hopen := hord.clearBlock key
      have hq := clearBlock_quiet (k := k) key s
      have hcl := cleanupGateIfIdle_quiet (k := k) key
        (s.updateGate key fun gate => { gate with blockedUntil := none }).drainQueues
      refine ⟨hcl.limited ((hq.limited hl).drainQueues hopen), fun hb => iff_of_true ?_ id⟩
      exact fun key' => hcl.balancedAt
        (drainQueues_balancedAt (hq.limited hl) hopen (hq.balancedAt (hb key')))
  | reset key =>
    cases h
    exact hkeep (by simp) ((hl.reset hord key).forget key) fun hb => hb.reset hl hord key
  | resetAll =>
    cases h
    obtain ⟨timers, rejections, heq⟩ := resetAll_eq hord
    refine hkeep (by simp) ⟨fun hg => ?_, fun p hp => ?_⟩ fun _ key => ⟨?_, ?_⟩
    · rw [heq] at hg
      simp at hg
    · obtain ⟨p₀, hp₀, rfl⟩ := List.mem_map.1 hp
      exact nil_subset _
    · simp [runningOf, outstanding, heq, countP_map, Function.comp_def]
    · simp [outstanding, countP_map, Function.comp_def]
  | cleanup t =>
    obtain ⟨-, h⟩ := ite_none_right_eq_some.1 h
    cases h
    have hq : Quiet k s { s with cleanupTimers := s.cleanupTimers.erase t } := .of_eq rfl rfl
    exact hquiet (by simp) (hq.trans (cleanupGateIfIdle_quiet t.key _))
  | advance dt =>
    cases h
    exact hquiet (by simp) (.of_eq rfl rfl)

/-- **Counters and limits hold throughout a run exactly when no stale slot is freed.** The run
may interleave calls, releases, timeouts, aborts, blocks and resets in any order, as long as
every call asks for `k key` slots of a key. -/
theorem balanced_iff (k : String → ℕ) (now : ℕ) {es : List Event}
    (hes : ∀ e ∈ es, FixedLimits k e) :
    Trace.Throughout step (Balanced k) (start now) es ↔
      Trace.Meets step (fun s e => ¬ s.FreesStaleSlot e) (start now) es := by
  refine Trace.throughout_iff_meets_of (I := fun s => s.Sound ∧ s.Limited k) ?_ ?_ hes
    ⟨Sound.start now, fun hg => by simp [start] at hg, fun p hp => by simp [start] at hp⟩
    fun key => ⟨rfl, Nat.zero_le _⟩
  · exact fun s e s' hI he h => ⟨hI.1.step h, (step_balanced_iff hI.1 hI.2 he h).1⟩
  · exact fun s e s' hI he hb h => (step_balanced_iff hI.1 hI.2 he h).2 hb

/-- Two calls for the one slot of "a", with a reset in between; then the first one lets go, and
a third call comes. -/
def staleRelease : List Event :=
  let call : Event := .acquireMany [{ key := "a", maxConcurrency := some 1 }] {}
  [call, .reset "a", call, .release 0, call]

theorem fixedLimits_staleRelease : ∀ e ∈ staleRelease, FixedLimits (fun _ => 1) e := by
  simp [staleRelease, FixedLimits, trunc]

theorem balanced_iff_staleRelease :
    (∀ e ∈ staleRelease, FixedLimits (fun _ => 1) e) ∧
      (Trace.Throughout step (Balanced fun _ => 1) (start 1) staleRelease ↔
        Trace.Meets step (fun s e => ¬ s.FreesStaleSlot e) (start 1) staleRelease) :=
  ⟨fixedLimits_staleRelease, balanced_iff (fun _ => 1) 1 fixedLimits_staleRelease⟩

/-- **A release function from before a reset frees a slot of the new gate**: two permits granted
after the reset are out on a key with one slot, and the gate counts one. -/
theorem staleRelease_overgrants :
    ∃ s, Trace.exec step (start 1) staleRelease = some s ∧
      (∀ e ∈ staleRelease, FixedLimits (fun _ => 1) e) ∧
      s.outstanding "a" = 2 ∧ s.runningOf "a" = 1 :=
  ⟨_, rfl, fixedLimits_staleRelease, by decide, by decide⟩

end AccountSemaphore

end OmniRoute
