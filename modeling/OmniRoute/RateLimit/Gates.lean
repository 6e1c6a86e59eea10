import OmniRoute.Lib.Trace
import OmniRoute.RateLimit.Semaphore

/-!
# One model at a time

A `ModelView` is what the semaphore holds about one model: its gate, if it has one, the calls
granted so far, the release functions still out, and the calls waiting. The exported functions
act on the view of their own model as the functions of this file do, and leave the views of all
other models alone (`step_view`). Gate ids, the heap and the map are gone from the views, and
what they leave behind is one bit: the delayed drain of a `markRateLimited` may be *stale*, made
for a gate object that the map has dropped since.
-/

namespace OmniRoute

open List OrdMap Or

/-! ## A gate and its pause -/

namespace ModelGate

/-- The pause of the gate has not run out. -/
def Paused (now : ℕ) (gate : ModelGate) : Prop :=
  ∃ pausedUntil, gate.rateLimitedUntil = some pausedUntil ∧ pausedUntil ≠ 0 ∧ ↑now < pausedUntil

/-- The gate was paused and the pause has run out, but it has not been cleared. -/
def PauseOver (now : ℕ) (gate : ModelGate) : Prop :=
  ∃ pausedUntil, gate.rateLimitedUntil = some pausedUntil ∧ pausedUntil ≠ 0 ∧ pausedUntil ≤ ↑now

instance (now : ℕ) (gate : ModelGate) : Decidable (gate.PauseOver now) :=
  decidable_of_iff
    (gate.rateLimitedUntil.any fun pausedUntil => pausedUntil ≠ 0 ∧ pausedUntil ≤ ↑now) (by
      cases h : gate.rateLimitedUntil <;> simp [PauseOver, h])

theorem PauseOver.not_paused {now : ℕ} {gate : ModelGate} (h : gate.PauseOver now) :
    ¬ gate.Paused now := by
  obtain ⟨u, hu, -, hle⟩ := h
  rintro ⟨u', hu', -, hlt⟩
  rw [hu, Option.some.injEq] at hu'
  omega

/-- Slots a drain can fill. -/
def slots (gate : ModelGate) : ℕ := (gate.max - gate.running).toNat

/-- `gate'` is `gate`, save that a pause that has run out may have been cleared. -/
structure ClearedTo (now : ℕ) (gate gate' : ModelGate) : Prop where
  running : gate'.running = gate.running
  max : gate'.max = gate.max
  queue : gate'.queue = gate.queue
  pause : gate'.rateLimitedUntil = gate.rateLimitedUntil ∨
    (gate'.rateLimitedUntil = none ∧ ¬ gate.Paused now)

theorem ClearedTo.paused_iff {now : ℕ} {gate gate' : ModelGate} (h : gate.ClearedTo now gate') :
    gate'.Paused now ↔ gate.Paused now := by
  rcases h.pause with heq | ⟨hnone, hnot⟩
  · simp only [Paused, heq]
  · exact ⟨fun ⟨u, hu, _⟩ => by simp [hnone] at hu, fun hp => absurd hp hnot⟩

theorem isRateLimited_spec (now : ℕ) (gate : ModelGate) :
    ((gate.isRateLimited now).1 = true ↔ gate.Paused now) ∧
      gate.ClearedTo now (gate.isRateLimited now).2 := by
  unfold isRateLimited
  cases hu : gate.rateLimitedUntil with
  | none => exact ⟨by simp [Paused, hu], ⟨rfl, rfl, rfl, inl rfl⟩⟩
  | some u =>
    dsimp only
    split
    · next h0 => exact ⟨by simp [Paused, hu, h0], ⟨rfl, rfl, rfl, inl rfl⟩⟩
    · next h0 =>
      split
      · next hle =>
        have hnot : ¬ gate.Paused now := by
          rintro ⟨u', hu', -, hlt⟩
          rw [hu, Option.some.injEq] at hu'
          omega
        exact ⟨by simp [hnot], ⟨rfl, rfl, rfl, inr ⟨rfl, hnot⟩⟩⟩
      · next hle => exact ⟨by simpa [Paused, hu, h0] using hle, ⟨rfl, rfl, rfl, inl rfl⟩⟩

theorem hasSlot_spec (now : ℕ) (gate : ModelGate) :
    ((gate.hasSlot now).1 = true ↔ ↑gate.running < gate.max ∧ ¬ gate.Paused now) ∧
      gate.ClearedTo now (gate.hasSlot now).2 := by
  obtain ⟨hp, hc⟩ := isRateLimited_spec now gate
  unfold hasSlot
  split
  · next hlt =>
    refine ⟨?_, hc⟩
    rw [← hp]
    simp [hlt]
  · next hlt => exact ⟨by simp [hlt], ⟨rfl, rfl, rfl, inl rfl⟩⟩

/-- What a drain does: nothing while the gate is paused, else it fills the free slots from the
head of the queue. -/
theorem drainLoop_spec (now : ℕ) (queue : List ℕ) (gate : ModelGate) :
    ∃ n, ((gate.Paused now ∧ n = 0) ∨ (¬ gate.Paused now ∧ n = gate.slots)) ∧
      (gate.drainLoop now queue).1 = queue.take n ∧
      (gate.drainLoop now queue).2.queue = queue.drop n ∧
      (gate.drainLoop now queue).2.running = gate.running + (queue.take n).length ∧
      (gate.drainLoop now queue).2.max = gate.max ∧
      ((gate.drainLoop now queue).2.rateLimitedUntil = gate.rateLimitedUntil ∨
        ¬ gate.Paused now) := by
  induction queue generalizing gate with
  | nil =>
    by_cases hp : gate.Paused now
    · exact ⟨0, inl ⟨hp, rfl⟩, by simp [drainLoop]⟩
    · exact ⟨gate.slots, inr ⟨hp, rfl⟩, by simp [drainLoop]⟩
  | cons next queue ih =>
    obtain ⟨hfree, hc⟩ := hasSlot_spec now gate
    simp only [drainLoop]
    split
    · next hb =>
      obtain ⟨hlt, hp⟩ := hfree.1 hb
      have hp' : ¬ (gate.hasSlot now).2.take.Paused now := fun h => hp (hc.paused_iff.1 h)
      obtain ⟨n, hn, h1, h2, h3, h4, -⟩ := ih (gate.hasSlot now).2.take
      rcases hn with ⟨hpa, -⟩ | ⟨-, rfl⟩
      · exact absurd hpa hp'
      have hslots : gate.slots = (gate.hasSlot now).2.take.slots + 1 := by
        simp only [slots, take, hc.running, hc.max]
        omega
      refine ⟨gate.slots, inr ⟨hp, rfl⟩, ?_, ?_, ?_, ?_, inr hp⟩
      · rw [hslots, take_succ_cons, h1]
      · rw [hslots, drop_succ_cons, h2]
      · rw [hslots, take_succ_cons, h3]
        simp only [take, hc.running, length_cons]
        omega
      · rw [h4]
        exact hc.max
    · next hb =>
      have hn : ∃ n, ((gate.Paused now ∧ n = 0) ∨ (¬ gate.Paused now ∧ n = gate.slots)) ∧
          n = 0 := by
        by_cases hp : gate.Paused now
        · exact ⟨0, inl ⟨hp, rfl⟩, rfl⟩
        · refine ⟨gate.slots, inr ⟨hp, rfl⟩, ?_⟩
          have : ¬ (↑gate.running < gate.max) := fun hlt => hb (hfree.2 ⟨hlt, hp⟩)
          simp only [slots]
          omega
      obtain ⟨n, hn, rfl⟩ := hn
      refine ⟨0, hn, by simp, by simp, by simp [hc.running], hc.max, ?_⟩
      rcases hc.pause with heq | ⟨-, hnot⟩
      · exact inl heq
      · exact inr hnot

end ModelGate

/-- One model's share of the semaphore. -/
structure ModelView where
  gate : Option ModelGate
  grants : List ℕ
  held : List ℕ
  waiting : List ℕ

namespace ModelView

/-! ## The functions on a view -/

/-- The gate `getGate` returns. -/
def lookup (maxConcurrency : ℤ) (v : ModelView) : ModelGate :=
  { v.gate.getD (.fresh maxConcurrency) with max := maxConcurrency }

/-- Put a gate back, or drop it when it is idle. -/
def settle (gate : ModelGate) (v : ModelView) : ModelView :=
  { v with gate := if gate.Idle then none else some gate }

/-- Hand release functions to `calls`. -/
def resolve (calls : List ℕ) (v : ModelView) : ModelView :=
  { v with
    grants := v.grants ++ calls
    held := v.held ++ calls
    waiting := v.waiting.filter (· ∉ calls) }

def drain (now : ℕ) (v : ModelView) : ModelView :=
  match v.gate with
  | none => v
  | some gate =>
      let (granted, gate) := gate.drainLoop now gate.queue
      (v.resolve granted).settle gate

def acquire (now call : ℕ) (options : AcquireOptions) (v : ModelView) : ModelView :=
  let (free, gate) := (v.lookup options.maxConcurrency).hasSlot now
  if free then { v with gate := some gate.take }.resolve [call]
  else if gate.queueFull options.maxQueueSize then v.settle gate
  else
    { v with
      gate := some { gate with queue := gate.queue ++ [call] }
      waiting := v.waiting ++ [call] }

def release (now call : ℕ) (v : ModelView) : ModelView :=
  let v : ModelView := { v with held := v.held.erase call }
  match v.gate with
  | none => v
  | some gate =>
      if 0 < gate.running then
        let gate : ModelGate := { gate with running := gate.running - 1 }
        if gate.Idle then { v with gate := none } else { v with gate := some gate }.drain now
      else v

def expire (call : ℕ) (v : ModelView) : ModelView :=
  { v with
    gate := v.gate.map fun gate => { gate with queue := gate.queue.erase call }
    waiting := v.waiting.filter (· ≠ call) }

def mark (now : ℕ) (cooldownMs : ℤ) (v : ModelView) : ModelView :=
  { v with gate := some { v.lookup 3 with rateLimitedUntil := some (now + cooldownMs) } }

/-- The delayed drain of a mark made at the model's present gate. -/
def delayedDrain (now : ℕ) (v : ModelView) : ModelView :=
  match v.gate with
  | none => v
  | some gate =>
      if gate.PauseOver now then
        { v with gate := some { gate with rateLimitedUntil := none } }.drain now
      else v

def reset (v : ModelView) : ModelView :=
  { v with
    gate := none
    waiting := v.waiting.filter (· ∉ (v.gate.map (·.queue)).getD []) }

/-- The queue of the gate is the list of pending calls, in arrival order. -/
structure WF (calls : ℕ) (v : ModelView) : Prop where
  queue : (v.gate.map (·.queue)).getD [] = v.waiting
  sorted : v.waiting.Pairwise (· < ·)
  waiting_lt : ∀ call ∈ v.waiting, call < calls

/-! ## The invariant of a view -/

theorem filter_notMem_take {l : List ℕ} (h : l.Pairwise (· < ·)) (n : ℕ) :
    l.filter (· ∉ l.take n) = l.drop n := by
  conv_lhs => rw [← take_append_drop n l]
  rw [filter_append, filter_eq_nil_iff.2, List.nil_append, filter_eq_self]
  · intro a ha
    have hsplit := (pairwise_append.1 ((take_append_drop n l).symm ▸ h)).2.2
    simp only [decide_eq_true_eq]
    exact fun hmem => Nat.lt_irrefl a (hsplit a (by simpa using hmem) a ha)
  · intro a ha
    simpa using ha

variable {v : ModelView} {calls : ℕ}

section

variable (hv : v.WF calls)
include hv

theorem WF.queue_eq {gate : ModelGate} (hg : v.gate = some gate) : gate.queue = v.waiting := by
  have := hv.queue
  rwa [hg] at this

theorem WF.mono {calls' : ℕ} (h : calls ≤ calls') : v.WF calls' :=
  ⟨hv.queue, hv.sorted, fun c hc => Nat.lt_of_lt_of_le (hv.waiting_lt c hc) h⟩

/-- What a drain does to a well-formed view: it grants the first `n` calls waiting. -/
theorem drain_spec {gate : ModelGate} (hg : v.gate = some gate) (now : ℕ) :
    ∃ n gate', ((gate.Paused now ∧ n = 0) ∨ (¬ gate.Paused now ∧ n = gate.slots)) ∧
      gate'.queue = v.waiting.drop n ∧
      gate'.running = gate.running + (v.waiting.take n).length ∧ gate'.max = gate.max ∧
      (gate'.rateLimitedUntil = gate.rateLimitedUntil ∨ ¬ gate.Paused now) ∧
      v.drain now = { gate := if gate'.Idle then none else some gate',
                      grants := v.grants ++ v.waiting.take n
                      held := v.held ++ v.waiting.take n
                      waiting := v.waiting.drop n } := by
  obtain ⟨n, hn, h1, h2, h3, h4, h5⟩ := gate.drainLoop_spec now gate.queue
  rw [hv.queue_eq hg] at h1 h2 h3 h4 h5
  refine ⟨n, _, hn, h2, h3, h4, h5, ?_⟩
  simp only [drain, hg, settle, resolve, hv.queue_eq hg, h1, filter_notMem_take hv.sorted]

omit hv in
theorem WF.settle {gate : ModelGate} (hq : gate.queue = v.waiting) (hs : v.waiting.Pairwise (· < ·))
    (hlt : ∀ c ∈ v.waiting, c < calls) : (v.settle gate).WF calls := by
  refine ⟨?_, hs, hlt⟩
  simp only [ModelView.settle]
  split
  · next hidle => simpa [hq] using hidle.2.symm
  · simpa using hq

theorem WF.drain (now : ℕ) : (v.drain now).WF calls := by
  cases hg : v.gate with
  | none => simpa [ModelView.drain, hg] using hv
  | some gate =>
    obtain ⟨n, gate', -, hq, -, -, -, hd⟩ := drain_spec hv hg now
    rw [hd]
    exact WF.settle (v := ⟨v.gate, v.grants ++ v.waiting.take n, v.held ++ v.waiting.take n,
      v.waiting.drop n⟩) hq (hv.sorted.sublist (drop_sublist _ _))
      fun c hc => hv.waiting_lt c (mem_of_mem_drop hc)

theorem lookup_queue (k : ℤ) : (v.lookup k).queue = v.waiting := by
  rw [← hv.queue]
  cases h : v.gate <;> simp [lookup, h, ModelGate.fresh]

theorem WF.acquire (now : ℕ) (options : AcquireOptions) :
    (v.acquire now calls options).WF (calls + 1) := by
  have hc := ((v.lookup options.maxConcurrency).hasSlot_spec now).2
  have hq := hc.queue.trans (lookup_queue hv options.maxConcurrency)
  have hlt : ∀ c ∈ v.waiting, c < calls + 1 := fun c h => Nat.lt_succ_of_lt (hv.waiting_lt c h)
  simp only [ModelView.acquire]
  split
  · have hself : v.waiting.filter (· ∉ [calls]) = v.waiting := by
      refine filter_eq_self.2 fun c h => ?_
      have := hv.waiting_lt c h
      simp only [mem_singleton, decide_eq_true_eq]
      omega
    refine ⟨?_, ?_, ?_⟩ <;> simp only [resolve, hself]
    · exact hq
    · exact hv.sorted
    · exact hlt
  · split
    · exact WF.settle hq hv.sorted hlt
    · refine ⟨by simp [hq], pairwise_append.2 ⟨hv.sorted, by simp, ?_⟩, ?_⟩
      · intro c h c' h'
        rw [mem_singleton.1 h']
        exact hv.waiting_lt c h
      · intro c h
        rcases mem_append.1 h with h | h
        · exact hlt c h
        · rw [mem_singleton.1 h]
          exact Nat.lt_succ_self _

theorem WF.release (now call : ℕ) : (v.release now call).WF calls := by
  have hheld : ∀ held, ModelView.WF calls { v with held } := fun _ =>
    ⟨hv.queue, hv.sorted, hv.waiting_lt⟩
  simp only [ModelView.release]
  split
  · exact hheld _
  · next gate hg =>
    have hq := hv.queue_eq hg
    split
    · split
      · next hidle =>
        exact ⟨by simpa [← hq] using hidle.2.symm, hv.sorted, hv.waiting_lt⟩
      · refine WF.drain ?_ now
        exact ⟨hq, hv.sorted, hv.waiting_lt⟩
    · exact hheld _

theorem WF.expire (call : ℕ) : (v.expire call).WF calls := by
  have hnd : v.waiting.Nodup := hv.sorted.imp Nat.ne_of_lt
  refine ⟨?_, hv.sorted.sublist filter_sublist, fun c hc =>
    hv.waiting_lt c (mem_of_mem_filter hc)⟩
  have herase : v.waiting.filter (· ≠ call) = v.waiting.erase call := by
    rw [hnd.erase_eq_filter]
    exact filter_congr fun c _ => by by_cases h : c = call <;> simp [h]
  simp only [ModelView.expire]
  rw [herase, ← hv.queue]
  cases v.gate <;> rfl

theorem WF.mark (now : ℕ) (cooldownMs : ℤ) : (v.mark now cooldownMs).WF calls :=
  ⟨by simpa [ModelView.mark] using lookup_queue hv 3, hv.sorted, hv.waiting_lt⟩

theorem WF.delayedDrain (now : ℕ) : (v.delayedDrain now).WF calls := by
  unfold ModelView.delayedDrain
  split
  · exact hv
  · next gate hg =>
    have hq := hv.queue_eq hg
    split
    · refine WF.drain ?_ now
      exact ⟨hq, hv.sorted, hv.waiting_lt⟩
    · exact hv

/-- A reset leaves nobody waiting, since everybody who waits is in the queue. -/
theorem reset_waiting : v.reset.waiting = [] := by
  simp only [reset, hv.queue]
  simp

theorem WF.reset : v.reset.WF calls := by
  have hnil := reset_waiting hv
  exact ⟨by rw [hnil]; rfl, hnil ▸ .nil, by simp [hnil]⟩

end

end ModelView

namespace RateLimitSemaphore

/-- What the semaphore holds about `modelStr`. -/
def view (modelStr : String) (s : RateLimitSemaphore) : ModelView where
  gate := (s.gates.get modelStr).map s.heap
  grants := (s.grants.filter (·.model = modelStr)).map (·.call)
  held := (s.held.filter (·.2 = modelStr)).map (·.1)
  waiting := (s.waiterTimers.filter (·.model = modelStr)).map (·.call)

/-- From `s` to `s'` the view of `m` changes by `f` and no other view changes. -/
structure ActsOn (m : String) (f : ModelView → ModelView) (s s' : RateLimitSemaphore) : Prop where
  own : s'.view m = f (s.view m)
  other : ∀ m', m' ≠ m → s'.view m' = s.view m'

variable {f : ModelView → ModelView} {s s' : RateLimitSemaphore} {m : String}

theorem ActsOn.trans {g : ModelView → ModelView} {s'' : RateLimitSemaphore} (h : ActsOn m f s s')
    (h' : ActsOn m g s' s'') : ActsOn m (g ∘ f) s s'' :=
  ⟨by rw [h'.own, h.own, Function.comp], fun m' hm => (h'.other m' hm).trans (h.other m' hm)⟩

theorem ActsOn.congr {g : ModelView → ModelView} (h : ActsOn m f s s')
    (hfg : f (s.view m) = g (s.view m)) : ActsOn m g s s' :=
  ⟨h.own.trans hfg, h.other⟩

/-- How a `ActsOn` step reads at an arbitrary model. -/
theorem ActsOn.view_eq (h : ActsOn m f s s') (m' : String) :
    s'.view m' = if m' = m then f (s.view m') else s.view m' := by
  split
  · next hm => rw [hm, h.own]
  · next hm => exact h.other m' hm

/-! ## Views of the primitive updates -/

section

variable (s : RateLimitSemaphore)

theorem view_setGate (i : GateId) (gate : ModelGate) (m : String) :
    (s.setGate i gate).view m =
      if s.gates.get m = some i then { s.view m with gate := some gate } else s.view m := by
  unfold view setGate
  cases h : s.gates.get m with
  | none => simp
  | some j => by_cases hj : j = i <;> simp [hj]

theorem actsOn_deleteGate (m : String) :
    ActsOn m (fun v => { v with gate := none }) s (s.deleteGate m) := by
  refine ⟨by simp [view, deleteGate], fun m' h => ?_⟩
  simp [view, deleteGate, get_delete_ne _ h]

/-- Clearing the timeout of a call of `m`, seen from the timeouts of `m'`. -/
theorem waiterTimers_filter (timers : List WaiterTimer) (call : ℕ) (m m' : String) :
    (timers.filter fun t => ¬ (t.call = call ∧ t.model = m)).filter (fun t => t.model = m') =
      (timers.filter fun t => t.model = m').filter fun t => ¬ (t.call = call ∧ m' = m) := by
  rw [filter_filter, filter_filter]
  refine filter_congr fun t _ => ?_
  by_cases ht : t.model = m' <;> simp [ht]

/-- The permits of one model, seen as calls, after a release function of `m` is used. -/
theorem held_erase (held : List (ℕ × String)) (call : ℕ) (m m' : String) :
    ((held.erase (call, m)).filter (·.2 = m')).map (·.1) =
      if m' = m then ((held.filter (·.2 = m')).map (·.1)).erase call
      else (held.filter (·.2 = m')).map (·.1) := by
  induction held with
  | nil => simp
  | cons p held ih =>
    obtain ⟨c, m₀⟩ := p
    rw [erase_cons]
    by_cases hp : (c, m₀) = (call, m)
    · obtain ⟨rfl, rfl⟩ := Prod.mk.injEq .. ▸ hp
      by_cases hm : m' = m₀
      · simp [hm]
      · simp [hm, Ne.symm hm]
    · simp only [beq_iff_eq, hp, if_false, filter_cons]
      by_cases hm₀ : m₀ = m'
      · have hc : m' = m → c ≠ call := fun h hc => hp (by rw [hc, hm₀, h])
        subst hm₀
        by_cases hm : m₀ = m <;> simp_all
      · simpa [hm₀] using ih

theorem actsOn_resolve (m : String) (call : ℕ) :
    ActsOn m (fun v => v.resolve [call]) s (s.resolve m call) := by
  constructor
  · simp only [view, resolve, ModelView.resolve, ModelView.mk.injEq, true_and, waiterTimers_filter]
    refine ⟨by simp, by simp, ?_⟩
    rw [filter_map]
    congr 1
    refine filter_congr fun t _ => ?_
    simp
  · intro m' hm
    simp only [view, resolve, ModelView.mk.injEq, true_and, waiterTimers_filter]
    exact ⟨by simp [Ne.symm hm], by simp [Ne.symm hm], by simp [hm]⟩

theorem actsOn_foldl_resolve (m : String) (calls : List ℕ) (s : RateLimitSemaphore) :
    ActsOn m (fun v => v.resolve calls) s
      (calls.foldl (fun s call => s.resolve m call) s) := by
  induction calls generalizing s with
  | nil => exact ⟨by simp [ModelView.resolve], fun _ _ => rfl⟩
  | cons call calls ih =>
    refine ((actsOn_resolve s m call).trans (ih _)).congr ?_
    simp only [Function.comp, ModelView.resolve, append_assoc, filter_filter,
      singleton_append, ModelView.mk.injEq, true_and]
    refine filter_congr fun c _ => ?_
    simp [not_or, Bool.and_comm]

/-- Resolving a list of calls touches neither the gates nor the drain timers. -/
theorem foldl_resolve_gates (m : String) (calls : List ℕ) (s : RateLimitSemaphore) :
    let s' := calls.foldl (fun s call => s.resolve m call) s
    s'.gates = s.gates ∧ s'.made = s.made ∧ s'.drainTimers = s.drainTimers ∧
      s'.waiterTimers.Sublist s.waiterTimers := by
  induction calls generalizing s with
  | nil => simp
  | cons call calls ih =>
    obtain ⟨h1, h2, h3, h4⟩ := ih (s.resolve m call)
    exact ⟨h1, h2, h3, h4.trans filter_sublist⟩

theorem actsOn_armTimeout (call : ℕ) (m : String) (i : GateId) (timeoutMs : ℕ) :
    ActsOn m (fun v => { v with waiting := v.waiting ++ [call] }) s
      (s.armTimeout call m i timeoutMs) :=
  ⟨by simp [view, armTimeout], fun m' h => by simp [view, armTimeout, Ne.symm h]⟩

end

/-! ## Gate ids -/

/-- The map and the timers agree on which gate object belongs to which model. -/
structure HeapOk (s : RateLimitSemaphore) : Prop where
  own : ∀ {m m' i}, s.gates.get m = some i → s.gates.get m' = some i → m' = m
  made : ∀ {m i}, s.gates.get m = some i → i < s.made
  waiters : ∀ t ∈ s.waiterTimers, s.gates.get t.model = some t.gate
  drains : ∀ t ∈ s.drainTimers, t.gate < s.made ∧
    ∀ m, s.gates.get m = some t.gate → m = t.model

section

variable (hs : s.HeapOk)
include hs

theorem HeapOk.of_frame (hg : s'.gates = s.gates) (hm : s'.made = s.made)
    (hw : s'.waiterTimers.Sublist s.waiterTimers) (hd : s'.drainTimers.Sublist s.drainTimers) :
    s'.HeapOk where
  own h h' := hs.own (hg ▸ h) (hg ▸ h')
  made h := hm ▸ hs.made (hg ▸ h)
  waiters t ht := hg ▸ hs.waiters t (hw.subset ht)
  drains t ht := by
    obtain ⟨h1, h2⟩ := hs.drains t (hd.subset ht)
    exact ⟨hm ▸ h1, fun m hm' => h2 m (hg ▸ hm')⟩

theorem HeapOk.setGate (i : GateId) (gate : ModelGate) : (s.setGate i gate).HeapOk :=
  hs.of_frame rfl rfl (List.Sublist.refl _) (List.Sublist.refl _)

theorem actsOn_setGate {i : GateId} (hi : s.gates.get m = some i)
    (gate : ModelGate) : ActsOn m (fun v => { v with gate := some gate }) s (s.setGate i gate) :=
  ⟨by rw [view_setGate, if_pos hi],
    fun m' h => by rw [view_setGate, if_neg fun hi' => h (hs.own hi hi')]⟩

/-- A gate nobody waits at may be dropped. -/
theorem HeapOk.deleteGate (hw : (s.view m).waiting = []) : (s.deleteGate m).HeapOk := by
  have hget : ∀ {m' i}, (s.deleteGate m).gates.get m' = some i → s.gates.get m' = some i := by
    intro m' i h
    simp only [RateLimitSemaphore.deleteGate, get_delete] at h
    split at h
    · cases h
    · exact h
  refine ⟨fun h h' => hs.own (hget h) (hget h'), fun h => hs.made (hget h), fun t ht => ?_,
    fun t ht => ⟨(hs.drains t ht).1, fun m' h => (hs.drains t ht).2 m' (hget h)⟩⟩
  have hne : t.model ≠ m := by
    rintro rfl
    have : t.call ∈ (s.view t.model).waiting :=
      mem_map.2 ⟨t, mem_filter.2 ⟨ht, by simp⟩, rfl⟩
    rw [hw] at this
    cases this
  exact (get_delete_ne _ hne).trans (hs.waiters t ht)

theorem settleGate_spec {i : GateId} (hi : s.gates.get m = some i)
    (gate : ModelGate) (hq : (s.view m).waiting = gate.queue) :
    (s.settleGate m i gate).HeapOk ∧
      ActsOn m (fun v => v.settle gate) s (s.settleGate m i gate) := by
  have hset := actsOn_setGate hs hi gate
  simp only [settleGate]
  split
  · next hidle =>
    refine ⟨(hs.setGate i gate).deleteGate ?_,
      (hset.trans (actsOn_deleteGate _ m)).congr (by simp [ModelView.settle, hidle])⟩
    rw [hset.own]
    exact hq.trans hidle.2
  · next hidle => exact ⟨hs.setGate i gate, hset.congr (by simp [ModelView.settle, hidle])⟩

theorem HeapOk.armTimeout {i : GateId} (hi : s.gates.get m = some i)
    (call timeoutMs : ℕ) : (s.armTimeout call m i timeoutMs).HeapOk := by
  refine ⟨hs.own, hs.made, fun t ht => ?_, hs.drains⟩
  rcases mem_append.1 ht with ht | ht
  · exact hs.waiters t ht
  · rw [mem_singleton.1 ht]
    exact hi

theorem getGate_spec (m : String) (k : ℤ) :
    (s.getGate m k).2.gates.get m = some (s.getGate m k).1 ∧
      (s.getGate m k).2.heap (s.getGate m k).1 = (s.view m).lookup k ∧
      (s.getGate m k).2.HeapOk ∧
      ActsOn m (fun v => { v with gate := some (v.lookup k) }) s (s.getGate m k).2 := by
  unfold getGate
  cases hi : s.gates.get m with
  | some i =>
    have hlook : (s.view m).lookup k = { s.heap i with max := k } := by
      simp [ModelView.lookup, view, hi]
    refine ⟨hi, ?_, hs.setGate _ _, (actsOn_setGate hs hi _).congr ?_⟩
    · simp [RateLimitSemaphore.setGate, hlook]
    · simp only [hlook]
  | none =>
    have hlook : (s.view m).lookup k = .fresh k := by
      simp [ModelView.lookup, view, hi, ModelGate.fresh]
    have hfresh : ∀ m', s.gates.get m' ≠ some s.made := fun m' h => absurd (hs.made h) (by simp)
    have hget : ∀ {m' i}, (s.gates.set m s.made).get m' = some i →
        (m' = m ∧ i = s.made) ∨ (m' ≠ m ∧ s.gates.get m' = some i) := by
      intro m' i h
      rw [get_set] at h
      split at h
      · next hm => exact inl ⟨hm, (Option.some.inj h).symm⟩
      · next hm => exact inr ⟨hm, h⟩
    refine ⟨by simp, by simp [RateLimitSemaphore.setGate, hlook], ⟨?_, ?_, ?_, ?_⟩, ?_, ?_⟩
    · intro m₁ m₂ i h₁ h₂
      rcases hget h₁ with ⟨hm₁, hi₁⟩ | ⟨-, hold₁⟩ <;> rcases hget h₂ with ⟨hm₂, hi₂⟩ | ⟨-, hold₂⟩
      · exact hm₂.trans hm₁.symm
      · exact absurd (hi₁ ▸ hold₂) (hfresh _)
      · exact absurd (hi₂ ▸ hold₁) (hfresh _)
      · exact hs.own hold₁ hold₂
    · intro m' i h
      rcases hget h with ⟨-, rfl⟩ | ⟨-, h⟩
      · exact Nat.lt_succ_self _
      · exact Nat.lt_succ_of_lt (hs.made h)
    · intro t ht
      have htg := hs.waiters t ht
      have hne : t.model ≠ m := by
        rintro rfl
        rw [hi] at htg
        cases htg
      exact (get_set_ne _ hne _).trans htg
    · intro t ht
      obtain ⟨h1, h2⟩ := hs.drains t ht
      refine ⟨Nat.lt_succ_of_lt h1, fun m' h => ?_⟩
      rcases hget h with ⟨-, hmade⟩ | ⟨-, h⟩
      · exact absurd hmade (Nat.ne_of_lt h1)
      · exact h2 m' h
    · rw [hlook]
      simp [view, RateLimitSemaphore.setGate]
    · intro m' hm
      have hheap : (s.gates.get m').map (s.setGate s.made (.fresh k)).heap =
          (s.gates.get m').map s.heap := by
        cases hj : s.gates.get m' with
        | none => rfl
        | some j =>
          have hne : j ≠ s.made := fun h => hfresh m' (h ▸ hj)
          simp [RateLimitSemaphore.setGate, hne]
      simp only [view, get_set_ne _ hm, hheap]
      rfl

end

/-! ## What every function leaves alone -/

/-- The clock and the call count stand, and grants are only added, at the present time. -/
structure Frame (s s' : RateLimitSemaphore) : Prop where
  calls : s'.calls = s.calls
  now : s'.now = s.now
  grants : ∃ new, s'.grants = s.grants ++ new ∧ ∀ g ∈ new, g.time = s.now

theorem Frame.of_eq (hc : s'.calls = s.calls) (hn : s'.now = s.now) (hg : s'.grants = s.grants) :
    Frame s s' :=
  ⟨hc, hn, [], by simp [hg], by simp⟩

theorem Frame.refl (s : RateLimitSemaphore) : Frame s s := .of_eq rfl rfl rfl

theorem Frame.trans {s'' : RateLimitSemaphore} (h : Frame s s') (h' : Frame s' s'') :
    Frame s s'' := by
  obtain ⟨new, hg, hnew⟩ := h.grants
  obtain ⟨new', hg', hnew'⟩ := h'.grants
  refine ⟨h'.calls.trans h.calls, h'.now.trans h.now, new ++ new', ?_, fun g hmem => ?_⟩
  · rw [hg', hg, append_assoc]
  · rcases mem_append.1 hmem with hmem | hmem
    · exact hnew g hmem
    · exact (hnew' g hmem).trans h.now

section

variable (s : RateLimitSemaphore)

section

variable (m : String)

theorem getGate_frame (k : ℤ) : Frame s (s.getGate m k).2 := by
  unfold getGate
  split <;> exact .of_eq rfl rfl rfl

theorem setGate_frame (i : GateId) (gate : ModelGate) :
    Frame s (s.setGate i gate) := .of_eq rfl rfl rfl

theorem resolve_frame (call : ℕ) : Frame s (s.resolve m call) :=
  ⟨rfl, rfl, [⟨call, m, s.now⟩], rfl, by simp⟩

theorem foldl_resolve_frame (calls : List ℕ) (s : RateLimitSemaphore) :
    Frame s (calls.foldl (fun s call => s.resolve m call) s) := by
  induction calls generalizing s with
  | nil => exact .refl s
  | cons call calls ih => exact (resolve_frame s m call).trans (ih (s.resolve m call))

theorem settleGate_frame (i : GateId) (gate : ModelGate) : Frame s (s.settleGate m i gate) := by
  unfold settleGate
  dsimp only
  split <;> exact .of_eq rfl rfl rfl

theorem drainQueue_frame : Frame s (s.drainQueue m) := by
  unfold drainQueue
  cases s.gates.get m with
  | none => exact .refl s
  | some i => exact (foldl_resolve_frame m _ s).trans (settleGate_frame _ m i _)

theorem releaseSlot_frame : Frame s (s.releaseSlot m) := by
  unfold releaseSlot
  split
  · exact .refl s
  · dsimp only
    split
    · split
      · exact .of_eq rfl rfl rfl
      · exact (setGate_frame s _ _).trans (drainQueue_frame _ m)
    · exact .refl s

theorem delayedDrain_frame (t : DrainTimer) : Frame s (s.delayedDrain t) := by
  unfold delayedDrain
  dsimp only
  split
  · exact .of_eq rfl rfl rfl
  · split
    · refine Frame.trans ?_ (drainQueue_frame _ t.model)
      exact .of_eq rfl rfl rfl
    · exact .of_eq rfl rfl rfl

theorem acquireAs_frame (call : ℕ) (m : String)
    (options : AcquireOptions) : Frame s (s.acquireAs call m options) := by
  have hget := getGate_frame s m options.maxConcurrency
  simp only [acquireAs]
  split
  · exact hget.trans ((setGate_frame _ _ _).trans (resolve_frame _ m call))
  · split
    · refine hget.trans (Frame.trans ?_ (settleGate_frame _ m _ _))
      exact .of_eq rfl rfl rfl
    · exact hget.trans (.of_eq rfl rfl rfl)

theorem markRateLimited_frame (cooldownMs : ℤ) : Frame s (s.markRateLimited m cooldownMs) :=
  (getGate_frame s m 3).trans (.of_eq rfl rfl rfl)

end

end

/-! ## Views of the exported functions -/

section

variable (hs : s.HeapOk)
include hs

theorem drainQueue_spec (m : String) (calls : ℕ) (hv : (s.view m).WF calls) :
    (s.drainQueue m).HeapOk ∧ ActsOn m (fun v => v.drain s.now) s (s.drainQueue m) := by
  unfold drainQueue
  cases hi : s.gates.get m with
  | none =>
    have hnone : (s.view m).gate = none := by simp [view, hi]
    exact ⟨hs, by simp [ModelView.drain, hnone], fun _ _ => rfl⟩
  | some i =>
    have hgate : (s.view m).gate = some (s.heap i) := by simp [view, hi]
    obtain ⟨n, -, h1, h2, -⟩ := (s.heap i).drainLoop_spec s.now (s.heap i).queue
    have hres := actsOn_foldl_resolve m ((s.heap i).drainLoop s.now (s.heap i).queue).1 s
    obtain ⟨hg, hm, hd, hw⟩ :=
      foldl_resolve_gates m ((s.heap i).drainLoop s.now (s.heap i).queue).1 s
    have hok := hs.of_frame hg hm hw (hd ▸ List.Sublist.refl _)
    have hi' := (congrArg (fun gates : OrdMap String GateId => gates.get m) hg).trans hi
    obtain ⟨hok', hacts⟩ := settleGate_spec hok hi'
      ((s.heap i).drainLoop s.now (s.heap i).queue).2 (by
        rw [hres.own, h1, h2, hv.queue_eq hgate]
        exact ModelView.filter_notMem_take hv.sorted n)
    exact ⟨hok', (hres.trans hacts).congr (by simp [ModelView.drain, hgate])⟩

theorem acquireAs_spec {calls : ℕ} (hv : (s.view m).WF calls) (call : ℕ)
    (options : AcquireOptions) :
    (s.acquireAs call m options).HeapOk ∧
      ActsOn m (fun v => v.acquire s.now call options) s (s.acquireAs call m options) := by
  obtain ⟨hi, hgate, hok, hget⟩ := getGate_spec hs m options.maxConcurrency
  have hnow := (getGate_frame s m options.maxConcurrency).now
  have hcl := (((s.view m).lookup options.maxConcurrency).hasSlot_spec s.now).2
  have hq := (hcl.queue.trans (ModelView.lookup_queue hv options.maxConcurrency)).symm
  simp only [acquireAs, hgate, hnow]
  generalize s.getGate m options.maxConcurrency = r at hi hok hget
  by_cases hfree : (((s.view m).lookup options.maxConcurrency).hasSlot s.now).1 = true
  · simp only [hfree, if_true]
    refine ⟨(hok.setGate _ _).of_frame rfl rfl filter_sublist (List.Sublist.refl _), ?_⟩
    refine ((hget.trans (actsOn_setGate hok hi _)).trans (actsOn_resolve _ m call)).congr ?_
    simp [ModelView.acquire, hfree]
  · by_cases hfull : (((s.view m).lookup options.maxConcurrency).hasSlot s.now).2.queueFull
        options.maxQueueSize = true
    · simp only [hfree, hfull, if_true]
      have hrej : ActsOn m id r.2 (r.2.reject call
          ⟨s!"Semaphore queue full ({options.maxQueueSize.getD 0}) for {m}",
            some "SEMAPHORE_QUEUE_FULL"⟩) := ⟨rfl, fun _ _ => rfl⟩
      have hokrej : (r.2.reject call
          ⟨s!"Semaphore queue full ({options.maxQueueSize.getD 0}) for {m}",
            some "SEMAPHORE_QUEUE_FULL"⟩).HeapOk :=
        hok.of_frame rfl rfl (List.Sublist.refl _) (List.Sublist.refl _)
      obtain ⟨hok', hacts⟩ := settleGate_spec hokrej hi
        (((s.view m).lookup options.maxConcurrency).hasSlot s.now).2
        (by rw [hrej.own, id, hget.own]; exact hq)
      refine ⟨hok', ((hget.trans hrej).trans hacts).congr ?_⟩
      simp [ModelView.acquire, hfree, hfull, ModelView.settle]
    · simp only [hfree, hfull]
      have harm := hok.armTimeout hi call options.timeoutMs
      refine ⟨harm.setGate _ _, ?_⟩
      refine ((hget.trans (actsOn_armTimeout _ call m _ _)).trans
        (actsOn_setGate harm hi _)).congr ?_
      simp [ModelView.acquire, hfree, hfull]

theorem releaseSlot_spec {calls : ℕ} (hv : (s.view m).WF calls) (call : ℕ) :
    ({ s with held := s.held.erase (call, m) }.releaseSlot m).HeapOk ∧
      ActsOn m (fun v => v.release s.now call) s
        ({ s with held := s.held.erase (call, m) }.releaseSlot m) := by
  set s₁ : RateLimitSemaphore := { s with held := s.held.erase (call, m) } with hs₁
  have hok : s₁.HeapOk := hs.of_frame rfl rfl (List.Sublist.refl _) (List.Sublist.refl _)
  have hheld : ActsOn m (fun v => { v with held := v.held.erase call }) s s₁ := by
    constructor
    · simp [view, hs₁, held_erase]
    · intro m' hm
      simp [view, hs₁, held_erase, hm]
  have hv₁ : (s₁.view m).WF calls := by
    rw [hheld.own]
    exact ⟨hv.queue, hv.sorted, hv.waiting_lt⟩
  unfold releaseSlot
  cases hi : s₁.gates.get m with
  | none =>
    have hnone : (s.view m).gate = none := by simpa [view, hs₁] using hi
    exact ⟨hok, hheld.congr (by simp [ModelView.release, hnone])⟩
  | some i =>
    have hgate : (s.view m).gate = some (s.heap i) := by
      have : s.gates.get m = some i := hi
      simp [view, this]
    have hq := hv.queue_eq hgate
    dsimp only
    have hset := hheld.trans (actsOn_setGate hok hi
      { s.heap i with running := (s.heap i).running - 1 })
    split
    · next hpos =>
      have hpos' : 0 < (s.heap i).running := hpos
      split
      · next hidle =>
        refine ⟨(hok.setGate _ _).deleteGate ?_, ?_⟩
        · have := hset.own
          refine (congrArg ModelView.waiting hset.own).trans (hq.symm.trans hidle.2)
        · refine (hset.trans (actsOn_deleteGate _ m)).congr ?_
          have hidle' : ModelGate.Idle { s.heap i with running := (s.heap i).running - 1 } := hidle
          simp [ModelView.release, hgate, hpos', hidle']
      · next hidle =>
        have hidle' : ¬ ModelGate.Idle { s.heap i with running := (s.heap i).running - 1 } := hidle
        obtain ⟨hok', hacts⟩ := drainQueue_spec (hok.setGate i
          { s.heap i with running := (s.heap i).running - 1 }) m calls (by
            rw [hset.own]
            exact ⟨hq, hv.sorted, hv.waiting_lt⟩)
        refine ⟨hok', (hset.trans hacts).congr ?_⟩
        simp only [Function.comp, ModelView.release, hgate, hpos', if_true, hidle', if_false]
        rfl
    · next hpos =>
      have hpos' : ¬ 0 < (s.heap i).running := hpos
      exact ⟨hok, hheld.congr (by simp [ModelView.release, hgate, hpos'])⟩

theorem expire_spec {t : WaiterTimer} (ht : t ∈ s.waiterTimers) :
    (s.expire t).HeapOk ∧ ActsOn t.model (fun v => v.expire t.call) s (s.expire t) := by
  have hi := hs.waiters t ht
  have hset := actsOn_setGate hs hi
    { s.heap t.gate with queue := (s.heap t.gate).queue.erase t.call }
  refine ⟨(hs.setGate t.gate
    { s.heap t.gate with queue := (s.heap t.gate).queue.erase t.call }).of_frame rfl rfl
      filter_sublist (List.Sublist.refl _), ?_, fun m' hm => ?_⟩
  · simp only [view, expire, setGate, ModelView.expire, hi, waiterTimers_filter,
      ModelView.mk.injEq, true_and]
    refine ⟨by simp, ?_⟩
    rw [filter_map]
    congr 1
    exact filter_congr fun t' _ => by simp
  · rw [← hset.other m' hm]
    simp only [view, expire, setGate, waiterTimers_filter, ModelView.mk.injEq, true_and]
    simp [hm]

theorem markRateLimited_spec (m : String) (cooldownMs : ℤ) :
    (s.markRateLimited m cooldownMs).HeapOk ∧
      ActsOn m (fun v => v.mark s.now cooldownMs) s (s.markRateLimited m cooldownMs) := by
  obtain ⟨hi, hgate, hok, hget⟩ := getGate_spec hs m 3
  have hnow := (getGate_frame s m 3).now
  simp only [markRateLimited, hgate, hnow]
  generalize s.getGate m 3 = r at hi hok hget
  have hset := actsOn_setGate hok hi
    { (s.view m).lookup 3 with rateLimitedUntil := some (s.now + cooldownMs) }
  constructor
  · refine ⟨hok.own, hok.made, hok.waiters, fun t ht => ?_⟩
    rcases mem_append.1 ht with ht | ht
    · exact hok.drains t ht
    · rw [mem_singleton.1 ht]
      exact ⟨hok.made hi, fun m' h => hok.own hi h⟩
  · have hacts := hget.trans hset
    exact ⟨hacts.own, hacts.other⟩

theorem delayedDrain_spec {t : DrainTimer} (ht : t ∈ s.drainTimers) {calls : ℕ}
    (hv : (s.view t.model).WF calls) :
    (s.delayedDrain t).HeapOk ∧
      ActsOn t.model (fun v =>
          if s.gates.get t.model = some t.gate then v.delayedDrain s.now
          else if (s.heap t.gate).PauseOver s.now then v.drain s.now else v)
        s (s.delayedDrain t) := by
  have hok : HeapOk { s with drainTimers := s.drainTimers.erase t } :=
    hs.of_frame rfl rfl (List.Sublist.refl _) erase_sublist
  have hsame : ActsOn t.model id s { s with drainTimers := s.drainTimers.erase t } :=
    ⟨rfl, fun _ _ => rfl⟩
  by_cases hover : (s.heap t.gate).PauseOver s.now
  · obtain ⟨u, hu, hu0, hle⟩ := hover
    have hover : (s.heap t.gate).PauseOver s.now := ⟨u, hu, hu0, hle⟩
    simp only [delayedDrain, hu, ne_eq, hu0, not_false_eq_true, hle, and_self, if_true]
    by_cases hi : s.gates.get t.model = some t.gate
    · have hset := hsame.trans (actsOn_setGate hok hi
        { s.heap t.gate with rateLimitedUntil := none })
      have hgate : (s.view t.model).gate = some (s.heap t.gate) := by simp [view, hi]
      have hq := hv.queue_eq hgate
      obtain ⟨hok', hacts⟩ := drainQueue_spec (hok.setGate t.gate
        { s.heap t.gate with rateLimitedUntil := none }) t.model calls (by
          rw [hset.own]
          exact ⟨hq, hv.sorted, hv.waiting_lt⟩)
      refine ⟨hok', (hset.trans hacts).congr ?_⟩
      simp [ModelView.delayedDrain, hi, hgate, hover, setGate]
    · have hother : ∀ m, s.gates.get m ≠ some t.gate := fun m h =>
        hi ((hs.drains t ht).2 m h ▸ h)
      have hset : ActsOn t.model id s
          (setGate t.gate { s.heap t.gate with rateLimitedUntil := none }
            { s with drainTimers := s.drainTimers.erase t }) :=
        ⟨(view_setGate _ _ _ _).trans (if_neg hi),
          fun m' _ => (view_setGate _ _ _ _).trans (if_neg (hother m'))⟩
      obtain ⟨hok', hacts⟩ := drainQueue_spec (hok.setGate t.gate
        { s.heap t.gate with rateLimitedUntil := none }) t.model calls (by
          rw [hset.own]
          exact hv)
      refine ⟨hok', (hset.trans hacts).congr ?_⟩
      simp [hi, hover, setGate]
  · have hskip : s.delayedDrain t = { s with drainTimers := s.drainTimers.erase t } := by
      simp only [delayedDrain]
      split
      · rfl
      · next u hu => exact if_neg fun h => hover ⟨u, hu, h.1, h.2⟩
    rw [hskip]
    refine ⟨hok, hsame.congr ?_⟩
    by_cases hi : s.gates.get t.model = some t.gate
    · have hgate : (s.view t.model).gate = some (s.heap t.gate) := by simp [view, hi]
      simp [ModelView.delayedDrain, hi, hgate, hover]
    · simp [hi, hover]

theorem resetAll_spec {calls : ℕ} (hv : ∀ m, (s.view m).WF calls) :
    s.resetAll.HeapOk ∧ ∀ m, s.resetAll.view m = (s.view m).reset := by
  have hqueued : ∀ call m, (call, m) ∈ (s.gates.entries.flatMap fun gate =>
      (s.heap gate.2).queue.map fun call => (call, gate.1)) ↔
        ∃ i, s.gates.get m = some i ∧ call ∈ (s.heap i).queue := by
    intro call m
    simp only [mem_flatMap, mem_map, Prod.mk.injEq, Prod.exists, get_eq_some]
    constructor
    · rintro ⟨m', i, he, c, hc, rfl, rfl⟩
      exact ⟨i, he, hc⟩
    · rintro ⟨i, he, hc⟩
      exact ⟨m, i, he, call, hc, rfl, rfl⟩
  have hnone : s.resetAll.waiterTimers = [] := by
    refine filter_eq_nil_iff.2 fun t ht => ?_
    have hi := hs.waiters t ht
    have hgate : (s.view t.model).gate = some (s.heap t.gate) := by simp [view, hi]
    have hc : t.call ∈ (s.view t.model).waiting :=
      mem_map.2 ⟨t, mem_filter.2 ⟨ht, by simp⟩, rfl⟩
    have hmem := (hqueued t.call t.model).2 ⟨t.gate, hi, (hv t.model).queue_eq hgate ▸ hc⟩
    simpa using hmem
  constructor
  · refine ⟨?_, ?_, ?_, fun t ht => ⟨(hs.drains t ht).1, ?_⟩⟩
    · intro m m' i h
      simp [resetAll] at h
    · intro m i h
      simp [resetAll] at h
    · simp [hnone]
    · intro m h
      simp [resetAll] at h
  · intro m
    have hw := ModelView.reset_waiting (hv m)
    have hview : s.resetAll.view m = { (s.view m).reset with waiting := [] } := by
      simp only [view, hnone, ModelView.reset]
      simp [resetAll]
    rw [hview, ← hw]

end

/-! ## Views of a step -/

/-- The gates are in order and every view is well formed. -/
structure Sound (s : RateLimitSemaphore) : Prop where
  heap : s.HeapOk
  views : ∀ m, (s.view m).WF s.calls

theorem Sound.start (now : ℕ) : (start now).Sound where
  heap := ⟨fun h _ => by simp [RateLimitSemaphore.start] at h,
    fun h => by simp [RateLimitSemaphore.start] at h,
    fun t ht => by simp [RateLimitSemaphore.start] at ht,
    fun t ht => by simp [RateLimitSemaphore.start] at ht⟩
  views m := ⟨by simp [view, RateLimitSemaphore.start], by simp [view, RateLimitSemaphore.start],
    by simp [view, RateLimitSemaphore.start]⟩

/-- The view of `m` after an event. -/
def viewAfter (m : String) (s : RateLimitSemaphore) : Event → ModelView
  | .acquire modelStr options =>
      if m = modelStr then (s.view m).acquire s.now s.calls options else s.view m
  | .release call modelStr =>
      if m = modelStr ∧ call ∈ (s.view m).held then (s.view m).release s.now call else s.view m
  | .timeout t => if m = t.model then (s.view m).expire t.call else s.view m
  | .markRateLimited modelStr cooldownMs =>
      if m = modelStr then (s.view m).mark s.now cooldownMs else s.view m
  | .delayedDrain t =>
      if m = t.model then
        if s.gates.get m = some t.gate then (s.view m).delayedDrain s.now
        else if (s.heap t.gate).PauseOver s.now then (s.view m).drain s.now
        else s.view m
      else s.view m
  | .resetAll => (s.view m).reset
  | .advance _ => s.view m

theorem mem_held_iff {call : ℕ} : (call, m) ∈ s.held ↔ call ∈ (s.view m).held := by
  simp [view]

/-- A step keeps the well-formedness of the calls count it does not touch. -/
theorem Sound.of_actsOn (hs : s.Sound) (hok : s'.HeapOk) (h : ActsOn m f s s')
    (hf : (f (s.view m)).WF s.calls) (hc : s'.calls = s.calls) : s'.Sound := by
  refine ⟨hok, fun m' => ?_⟩
  rw [hc, h.view_eq]
  split
  · next hm => exact hm ▸ hf
  · exact hs.views m'

/-- **Every step acts on the views as `viewAfter` says**, and soundness is kept. -/
theorem Sound.step {e : Event} (hs : s.Sound) (h : s.step e = some s') :
    s'.Sound ∧ ∀ m, s'.view m = s.viewAfter m e := by
  cases e with
  | acquire modelStr options =>
    cases h
    obtain ⟨hok, hacts⟩ := acquireAs_spec hs.heap (hs.views modelStr) s.calls options
    refine ⟨⟨hok.of_frame rfl rfl (List.Sublist.refl _) (List.Sublist.refl _), fun m => ?_⟩,
      fun m => hacts.view_eq m⟩
    change ((s.acquireAs s.calls modelStr options).view m).WF (s.calls + 1)
    rw [hacts.view_eq]
    split
    · exact (hs.views m).acquire s.now options
    · exact (hs.views m).mono (Nat.le_succ _)
  | release call modelStr =>
    simp only [RateLimitSemaphore.step] at h
    split at h
    · next hheld =>
      cases h
      obtain ⟨hok, hacts⟩ := releaseSlot_spec hs.heap (hs.views modelStr) call
      refine ⟨hs.of_actsOn hok hacts ((hs.views modelStr).release s.now call)
        (releaseSlot_frame _ modelStr).calls, fun m => ?_⟩
      rw [hacts.view_eq, viewAfter]
      by_cases hm : m = modelStr
      · have hmem : call ∈ (s.view m).held := mem_held_iff.1 (hm ▸ hheld)
        simp only [hm, hm ▸ hmem, and_self, if_true]
      · simp only [hm, false_and, if_false]
    · next hheld =>
      split at h
      · cases h
        refine ⟨hs, fun m => (if_neg ?_).symm⟩
        rintro ⟨rfl, hmem⟩
        exact hheld (mem_held_iff.2 hmem)
      · cases h
  | timeout t =>
    obtain ⟨⟨ht, -⟩, h⟩ := Option.ite_none_right_eq_some.1 h
    cases h
    obtain ⟨hok, hacts⟩ := expire_spec hs.heap ht
    exact ⟨hs.of_actsOn hok hacts ((hs.views t.model).expire t.call) rfl, hacts.view_eq⟩
  | markRateLimited modelStr cooldownMs =>
    cases h
    obtain ⟨hok, hacts⟩ := markRateLimited_spec hs.heap modelStr cooldownMs
    exact ⟨hs.of_actsOn hok hacts ((hs.views modelStr).mark s.now cooldownMs)
      (markRateLimited_frame s modelStr cooldownMs).calls, hacts.view_eq⟩
  | delayedDrain t =>
    obtain ⟨⟨ht, -⟩, h⟩ := Option.ite_none_right_eq_some.1 h
    cases h
    obtain ⟨hok, hacts⟩ := delayedDrain_spec hs.heap ht (hs.views t.model)
    refine ⟨hs.of_actsOn hok hacts ?_ (delayedDrain_frame s t).calls, fun m => ?_⟩
    · split
      · exact (hs.views t.model).delayedDrain s.now
      · split
        · exact (hs.views t.model).drain s.now
        · exact hs.views t.model
    · rw [hacts.view_eq, viewAfter]
      by_cases hm : m = t.model <;> simp only [hm, if_true, if_false]
  | resetAll =>
    cases h
    obtain ⟨hok, hview⟩ := resetAll_spec hs.heap hs.views
    refine ⟨⟨hok, fun m => ?_⟩, hview⟩
    rw [hview]
    exact (hs.views m).reset
  | advance dt =>
    cases h
    exact ⟨⟨hs.heap.of_frame rfl rfl (List.Sublist.refl _) (List.Sublist.refl _), hs.views⟩,
      fun _ => rfl⟩

/-- The time an event takes. -/
def Event.elapsed : Event → ℕ
  | .advance dt => dt
  | _ => 0

/-- The calls an event makes. -/
def Event.called : Event → ℕ
  | .acquire _ _ => 1
  | _ => 0

/-- The clock moves with `advance` only, `acquire` alone is counted, and calls are granted at the
present time. -/
theorem step_frame {e : Event} (h : s.step e = some s') :
    s'.calls = s.calls + e.called ∧ s'.now = s.now + e.elapsed ∧
      ∃ new, s'.grants = s.grants ++ new ∧ ∀ g ∈ new, g.time = s.now := by
  cases e with
  | acquire modelStr options =>
    cases h
    obtain ⟨-, hn, hg⟩ := acquireAs_frame s s.calls modelStr options
    exact ⟨rfl, hn, hg⟩
  | release call modelStr =>
    simp only [RateLimitSemaphore.step] at h
    split at h
    · cases h
      obtain ⟨hc, hn, hg⟩ := releaseSlot_frame { s with held := s.held.erase (call, modelStr) }
        modelStr
      exact ⟨hc, hn, hg⟩
    · split at h
      · cases h
        exact ⟨rfl, rfl, (Frame.refl s).grants⟩
      · cases h
  | timeout t =>
    obtain ⟨-, h⟩ := Option.ite_none_right_eq_some.1 h
    cases h
    exact ⟨rfl, rfl, [], by simp [expire, setGate], by simp⟩
  | markRateLimited modelStr cooldownMs =>
    cases h
    obtain ⟨hc, hn, hg⟩ := markRateLimited_frame s modelStr cooldownMs
    exact ⟨hc, hn, hg⟩
  | delayedDrain t =>
    obtain ⟨-, h⟩ := Option.ite_none_right_eq_some.1 h
    cases h
    obtain ⟨hc, hn, hg⟩ := delayedDrain_frame s t
    exact ⟨hc, hn, hg⟩
  | _ =>
    cases h
    exact ⟨rfl, rfl, (Frame.refl s).grants⟩

/-- States the semaphore gets to. -/
def Reachable (s : RateLimitSemaphore) : Prop :=
  ∃ now events, Trace.exec step (RateLimitSemaphore.start now) events = some s

theorem Reachable.sound (h : s.Reachable) : s.Sound := by
  obtain ⟨now, events, h⟩ := h
  exact Trace.exec_invariant (fun _ _ _ hs h => (Sound.step hs h).1) (Sound.start now) h

end RateLimitSemaphore

end OmniRoute
