import OmniRoute.RateLimit.Gates

/-!
# Capacity and order of a model's gate

All acquisitions of a model pass the same limit `k`. The gate's own `max` is another matter:
every lookup overwrites it, and the lookup of `markRateLimited` writes the default 3. So a drain
may fill slots the model does not have, or leave slots free that the next call then takes ahead
of the calls waiting; and a pause that has run out lets a new call pass the queue until the
delayed drain comes.

**Main result (`capacityFifo_iff`).** At most `k` permits are out and calls are granted in
arrival order, throughout a run, exactly when no release or delayed drain overfills the gate and
no acquisition overtakes the queue.
-/

namespace OmniRoute

open List

namespace ModelGate

/-- With `running` slots taken, filling the gate from its queue takes it past `k`. -/
def FillsPast (k running : ℕ) (gate : ModelGate) : Prop :=
  ↑k < gate.max ∧ k < running + gate.queue.length

end ModelGate

namespace ModelView

/-- At most `k` permits are out; the calls granted and the calls waiting, in this order, are in
order of arrival. -/
structure CapacityFifo (k : ℕ) (v : ModelView) : Prop where
  held_le : v.held.length ≤ k
  arrival : (v.grants ++ v.waiting).Pairwise (· < ·)

/-- The gate counts the permits that are out, and a call is granted once it was made. -/
structure Tally (calls : ℕ) (v : ModelView) : Prop where
  running : (v.gate.map (·.running)).getD 0 = v.held.length
  granted_lt : ∀ call ∈ v.grants, call < calls

variable {calls k : ℕ} {v : ModelView}

theorem Tally.running_eq (ht : v.Tally calls) {gate : ModelGate} (hg : v.gate = some gate) :
    gate.running = v.held.length := by
  have := ht.running
  rwa [hg] at this

theorem Tally.settle {gate : ModelGate} (hr : gate.running = v.held.length)
    (hlt : ∀ call ∈ v.grants, call < calls) : (v.settle gate).Tally calls := by
  refine ⟨?_, hlt⟩
  simp only [ModelView.settle]
  split
  · next hidle => exact hidle.1.symm.trans hr
  · exact hr

/-! ## Drains -/

theorem Tally.drain (ht : v.Tally calls) (hv : v.WF calls) (now : ℕ) :
    (v.drain now).Tally calls := by
  cases hg : v.gate with
  | none => simpa [ModelView.drain, hg] using ht
  | some gate =>
    obtain ⟨n, gate', -, -, hr, -, -, hd⟩ := drain_spec hv hg now
    rw [hd]
    refine Tally.settle (v := ⟨v.gate, v.grants ++ v.waiting.take n, v.held ++ v.waiting.take n,
      v.waiting.drop n⟩) ?_ fun c hc => ?_
    · rw [hr, ht.running_eq hg, length_append]
    · rcases mem_append.1 hc with hc | hc
      · exact ht.granted_lt c hc
      · exact hv.waiting_lt c (mem_of_mem_take hc)

/-- A drain keeps the order, and it keeps the capacity unless the gate fills past it. -/
theorem drain_capacityFifo (hv : v.WF calls) (ht : v.Tally calls) (hk : v.CapacityFifo k)
    (now : ℕ) :
    (v.drain now).CapacityFifo k ↔
      ¬ ∃ gate, v.gate = some gate ∧ ¬ gate.Paused now ∧ gate.FillsPast k gate.running := by
  cases hg : v.gate with
  | none => simpa [ModelView.drain, hg] using hk
  | some gate =>
    obtain ⟨n, gate', hn, -, -, -, -, hd⟩ := drain_spec hv hg now
    have hr := ht.running_eq hg
    have hq := congrArg List.length (hv.queue_eq hg)
    have hle := hk.held_le
    have harr : (v.grants ++ v.waiting.take n ++ v.waiting.drop n).Pairwise (· < ·) := by
      rw [append_assoc, take_append_drop]
      exact hk.arrival
    have hcap : (v.drain now).CapacityFifo k ↔ v.held.length + min n v.waiting.length ≤ k := by
      rw [hd]
      refine ⟨fun h => ?_, fun h => ⟨?_, harr⟩⟩
      · simpa using h.held_le
      · simpa using h
    rw [hcap]
    simp only [Option.some.injEq, exists_eq_left', ModelGate.FillsPast, not_and, hr, hq]
    rcases hn with ⟨hp, rfl⟩ | ⟨hp, rfl⟩
    · simpa [hp] using hle
    · simp only [hp, not_false_eq_true, true_implies, ModelGate.slots, hr]
      omega

/-! ## The other functions -/

/-- A call that finds a slot free takes it ahead of the queue. -/
def Overtakes (now k : ℕ) (v : ModelView) : Prop :=
  ∃ gate, v.gate = some gate ∧ gate.queue ≠ [] ∧ gate.running < k ∧ ¬ gate.Paused now

theorem Tally.lookup_running (ht : v.Tally calls) (maxConcurrency : ℤ) :
    (v.lookup maxConcurrency).running = v.held.length := by
  rw [← ht.running]
  cases hg : v.gate <;> simp [lookup, hg, ModelGate.fresh]

theorem Tally.acquire (ht : v.Tally calls) (now : ℕ) (options : AcquireOptions) :
    (v.acquire now calls options).Tally (calls + 1) := by
  have hr := (ModelGate.hasSlot_spec now (v.lookup options.maxConcurrency)).2.running.trans
    (ht.lookup_running options.maxConcurrency)
  have hlt : ∀ call ∈ v.grants, call < calls + 1 := fun c hc =>
    Nat.lt_succ_of_lt (ht.granted_lt c hc)
  simp only [ModelView.acquire]
  split
  · refine ⟨by simp [resolve, ModelGate.take, hr], fun c hc => ?_⟩
    rcases mem_append.1 hc with hc | hc
    · exact hlt c hc
    · rw [mem_singleton.1 hc]
      exact Nat.lt_succ_self _
  · split
    · exact Tally.settle hr hlt
    · exact ⟨hr, hlt⟩

/-- An acquisition keeps the capacity, and it keeps the order unless it overtakes. -/
theorem acquire_capacityFifo (hv : v.WF calls) (ht : v.Tally calls) (hk : v.CapacityFifo k)
    (now : ℕ) {options : AcquireOptions} (hopt : options.maxConcurrency = k) :
    (v.acquire now calls options).CapacityFifo k ↔ ¬ v.Overtakes now k := by
  have hfree := (ModelGate.hasSlot_spec now (v.lookup options.maxConcurrency)).1
  rw [ht.lookup_running] at hfree
  have hmax : (v.lookup options.maxConcurrency).max = k := hopt
  have hpaused : ∀ gate, v.gate = some gate →
      ((v.lookup options.maxConcurrency).Paused now ↔ gate.Paused now) := fun gate hg => by
    simp [lookup, hg, ModelGate.Paused]
  simp only [acquire]
  split
  · next hb =>
    obtain ⟨hlt, hp⟩ := hfree.1 hb
    rw [hmax, Int.ofNat_lt] at hlt
    have hself : v.waiting.filter (· ∉ [calls]) = v.waiting := by
      refine filter_eq_self.2 fun c h => ?_
      have := hv.waiting_lt c h
      simp only [mem_singleton, decide_eq_true_eq]
      omega
    have hover : v.Overtakes now k ↔ v.waiting ≠ [] := by
      constructor
      · rintro ⟨gate, hg, hq, -⟩
        exact hv.queue_eq hg ▸ hq
      · intro hw
        cases hg : v.gate with
        | none =>
          have hnil := hv.queue
          simp only [hg, Option.map_none, Option.getD_none] at hnil
          exact absurd hnil.symm hw
        | some gate =>
          exact ⟨gate, hg, hv.queue_eq hg ▸ hw, ht.running_eq hg ▸ hlt,
            fun h => hp ((hpaused gate hg).2 h)⟩
    rw [hover, not_not]
    constructor
    · intro h
      have harr := h.arrival
      simp only [resolve, hself] at harr
      refine eq_nil_iff_forall_not_mem.2 fun c hc => ?_
      have := (pairwise_append.1 harr).2.2 calls (by simp) c hc
      exact Nat.lt_asymm this (hv.waiting_lt c hc)
    · intro hw
      refine ⟨?_, ?_⟩
      · simpa [resolve] using Nat.succ_le_of_lt hlt
      · simp only [resolve, hself]
        rw [hw, append_nil]
        refine pairwise_append.2 ⟨(pairwise_append.1 hk.arrival).1, by simp, ?_⟩
        intro c hc c' hc'
        rw [mem_singleton.1 hc']
        exact ht.granted_lt c hc
  · next hb =>
    have hover : ¬ v.Overtakes now k := by
      rintro ⟨gate, hg, -, hlt, hp⟩
      refine hb (hfree.2 ⟨?_, fun h => hp ((hpaused gate hg).1 h)⟩)
      rw [hmax, Int.ofNat_lt]
      exact ht.running_eq hg ▸ hlt
    refine iff_of_true ?_ hover
    split
    · exact ⟨hk.held_le, hk.arrival⟩
    · refine ⟨hk.held_le, ?_⟩
      rw [← append_assoc]
      refine pairwise_append.2 ⟨hk.arrival, by simp, fun c hc c' hc' => ?_⟩
      rw [mem_singleton.1 hc']
      rcases mem_append.1 hc with hc | hc
      · exact ht.granted_lt c hc
      · exact hv.waiting_lt c hc

section Release

variable (hv : v.WF calls) (ht : v.Tally calls) {call : ℕ} (hheld : call ∈ v.held)
include hv ht hheld

/-- A release finds its gate with a slot taken. -/
theorem release_eq (now : ℕ) : ∃ gate, v.gate = some gate ∧
    v.release now call =
      { v with
        gate := some { gate with running := gate.running - 1 }
        held := v.held.erase call }.drain now := by
  have hpos : 0 < v.held.length := length_pos_of_mem hheld
  cases hg : v.gate with
  | none =>
    have := ht.running
    simp only [hg, Option.map_none, Option.getD_none] at this
    omega
  | some gate =>
    have hr := ht.running_eq hg
    have hpos' : 0 < gate.running := by omega
    refine ⟨gate, rfl, ?_⟩
    simp only [release, hg, hpos', if_true]
    split
    · next hidle =>
      have hw : v.waiting = [] := (hv.queue_eq hg).symm.trans hidle.2
      have hq : gate.queue = [] := hidle.2
      have hr0 : gate.running - 1 = 0 := hidle.1
      simp [drain, hq, ModelGate.drainLoop, resolve, settle, ModelGate.Idle, hr0, hw]
    · rfl

theorem released_tally {gate : ModelGate} (hg : v.gate = some gate) :
    ModelView.WF calls
        { v with
          gate := some { gate with running := gate.running - 1 }
          held := v.held.erase call } ∧
      ModelView.Tally calls
        { v with
          gate := some { gate with running := gate.running - 1 }
          held := v.held.erase call } := by
  have hq := hv.queue_eq hg
  have hr := ht.running_eq hg
  refine ⟨⟨hq, hv.sorted, hv.waiting_lt⟩, ⟨?_, ht.granted_lt⟩⟩
  simp [hr, length_erase_of_mem hheld]

theorem Tally.release (now : ℕ) : (v.release now call).Tally calls := by
  obtain ⟨gate, hg, hrel⟩ := release_eq hv ht hheld now
  obtain ⟨hv', ht'⟩ := released_tally hv ht hheld hg
  rw [hrel]
  exact ht'.drain hv' now

theorem release_capacityFifo (hk : v.CapacityFifo k) (now : ℕ) :
    (v.release now call).CapacityFifo k ↔
      ¬ ∃ gate, v.gate = some gate ∧ ¬ gate.Paused now ∧ gate.FillsPast k (gate.running - 1) := by
  obtain ⟨gate, hg, hrel⟩ := release_eq hv ht hheld now
  obtain ⟨hv', ht'⟩ := released_tally hv ht hheld hg
  have hk' : ModelView.CapacityFifo k
      { v with
        gate := some { gate with running := gate.running - 1 }
        held := v.held.erase call } :=
    ⟨Nat.le_trans length_erase_le hk.held_le, hk.arrival⟩
  rw [hrel, drain_capacityFifo hv' ht' hk' now, hg]
  simp [ModelGate.Paused, ModelGate.FillsPast]

end Release

theorem Tally.expire (ht : v.Tally calls) (call : ℕ) : (v.expire call).Tally calls := by
  refine ⟨Eq.trans ?_ ht.running, ht.granted_lt⟩
  cases hg : v.gate <;> simp [ModelView.expire, hg]

theorem CapacityFifo.expire (hk : v.CapacityFifo k) (call : ℕ) : (v.expire call).CapacityFifo k :=
  ⟨hk.held_le, hk.arrival.sublist (filter_sublist.append_left _)⟩

theorem Tally.mark (ht : v.Tally calls) (now : ℕ) (cooldownMs : ℤ) :
    (v.mark now cooldownMs).Tally calls :=
  ⟨ht.lookup_running 3, ht.granted_lt⟩

/-- What a delayed drain at the model's present gate does. -/
theorem delayedDrain_cases (hv : v.WF calls) (ht : v.Tally calls) (now : ℕ) :
    ((v.delayedDrain now = v ∧ ∀ gate, v.gate = some gate → ¬ gate.PauseOver now)) ∨
      ∃ gate v', v.gate = some gate ∧ gate.PauseOver now ∧
        v' = { v with gate := some { gate with rateLimitedUntil := none } } ∧
        v'.WF calls ∧ v'.Tally calls ∧ v.delayedDrain now = v'.drain now := by
  cases hg : v.gate with
  | none => exact Or.inl ⟨by simp [delayedDrain, hg], by simp⟩
  | some gate =>
    by_cases hover : gate.PauseOver now
    · have hq := hv.queue_eq hg
      have hr := ht.running_eq hg
      exact Or.inr ⟨gate, _, rfl, hover, rfl, ⟨hq, hv.sorted, hv.waiting_lt⟩,
        ⟨hr, ht.granted_lt⟩, by simp [delayedDrain, hg, hover]⟩
    · exact Or.inl ⟨by simp [delayedDrain, hg, hover], by simpa using hover⟩

theorem Tally.delayedDrain (ht : v.Tally calls) (hv : v.WF calls) (now : ℕ) :
    (v.delayedDrain now).Tally calls := by
  rcases delayedDrain_cases hv ht now with ⟨heq, -⟩ | ⟨gate, v', -, -, -, hv', ht', heq⟩
  · rw [heq]
    exact ht
  · rw [heq]
    exact ht'.drain hv' now

theorem delayedDrain_capacityFifo (hv : v.WF calls) (ht : v.Tally calls) (hk : v.CapacityFifo k)
    (now : ℕ) :
    (v.delayedDrain now).CapacityFifo k ↔
      ¬ ∃ gate, v.gate = some gate ∧ gate.PauseOver now ∧ gate.FillsPast k gate.running := by
  rcases delayedDrain_cases hv ht now with
    ⟨heq, hnot⟩ | ⟨gate, v', hg, hover, hv'eq, hv', ht', heq⟩
  · rw [heq]
    exact iff_of_true hk fun ⟨gate, hg, hover, _⟩ => hnot gate hg hover
  · have hk' : v'.CapacityFifo k := hv'eq ▸ ⟨hk.held_le, hk.arrival⟩
    rw [heq, drain_capacityFifo hv' ht' hk' now, hv'eq]
    simp [hg, hover, ModelGate.Paused, ModelGate.FillsPast]

end ModelView

namespace RateLimitSemaphore

/-- An event on the limit `k` for `m`: every acquisition passes `k`, and there is no reset. -/
def FixedLimit (m : String) (k : ℕ) : Event → Prop
  | .acquire modelStr options => modelStr = m → options.maxConcurrency = k
  | .resetAll => False
  | _ => True

/-- A release or a delayed drain that fills the gate of `m` past `k`. -/
def Overfills (m : String) (k : ℕ) (s : RateLimitSemaphore) : Event → Prop
  | .release call modelStr =>
      modelStr = m ∧ call ∈ (s.view m).held ∧
        ∃ gate, (s.view m).gate = some gate ∧ ¬ gate.Paused s.now ∧
          gate.FillsPast k (gate.running - 1)
  | .delayedDrain t =>
      t.model = m ∧ (s.heap t.gate).PauseOver s.now ∧
        ∃ gate, (s.view m).gate = some gate ∧ ¬ gate.Paused s.now ∧
          gate.FillsPast k gate.running
  | _ => False

/-- An acquisition of `m` that takes a free slot ahead of the calls waiting. -/
def Overtakes (m : String) (k : ℕ) (s : RateLimitSemaphore) : Event → Prop
  | .acquire modelStr _ => modelStr = m ∧ (s.view m).Overtakes s.now k
  | _ => False

/-- `ModelView.CapacityFifo` for the model `m`. -/
def CapacityFifo (m : String) (k : ℕ) (s : RateLimitSemaphore) : Prop := (s.view m).CapacityFifo k

/-- `Sound`, and the gate of `m` counts its permits. -/
structure Tallied (m : String) (s : RateLimitSemaphore) : Prop where
  sound : s.Sound
  tally : (s.view m).Tally s.calls

theorem viewAfter_capacityFifo {m : String} {k : ℕ} {s : RateLimitSemaphore} {e : Event}
    (hs : s.Tallied m) (hk : s.CapacityFifo m k) (he : FixedLimit m k e) :
    (s.viewAfter m e).CapacityFifo k ↔ ¬ s.Overfills m k e ∧ ¬ s.Overtakes m k e := by
  have hv := hs.sound.views m
  have ht := hs.tally
  have hk : (s.view m).CapacityFifo k := hk
  cases e with
  | acquire modelStr options =>
    by_cases hm : m = modelStr
    · subst hm
      simpa [viewAfter, Overfills, Overtakes] using
        ModelView.acquire_capacityFifo hv ht hk s.now (he rfl)
    · simpa [viewAfter, Overfills, Overtakes, hm, Ne.symm hm] using hk
  | release call modelStr =>
    by_cases hm : m = modelStr
    · subst hm
      by_cases hheld : call ∈ (s.view m).held
      · simpa [viewAfter, Overfills, Overtakes, hheld] using
          ModelView.release_capacityFifo hv ht hheld hk s.now
      · simpa [viewAfter, Overfills, Overtakes, hheld] using hk
    · simpa [viewAfter, Overfills, Overtakes, hm, Ne.symm hm] using hk
  | timeout t =>
    by_cases hm : m = t.model
    · simpa [viewAfter, Overfills, Overtakes, hm] using (hm ▸ hk).expire t.call
    · simpa [viewAfter, Overfills, Overtakes, hm] using hk
  | markRateLimited modelStr cooldownMs =>
    have hmark : ((s.view m).mark s.now cooldownMs).CapacityFifo k := ⟨hk.held_le, hk.arrival⟩
    by_cases hm : m = modelStr
    · simpa [viewAfter, Overfills, Overtakes, ← hm] using hmark
    · simpa [viewAfter, Overfills, Overtakes, hm] using hk
  | delayedDrain t =>
    by_cases hm : m = t.model
    · subst hm
      by_cases hcur : s.gates.get t.model = some t.gate
      · have hgate : (s.view t.model).gate = some (s.heap t.gate) := by simp [view, hcur]
        rw [viewAfter, if_pos rfl, if_pos hcur, ModelView.delayedDrain_capacityFifo hv ht hk s.now]
        simp only [Overfills, Overtakes, hgate, true_and, not_false_eq_true, and_true,
          Option.some.injEq, exists_eq_left']
        exact not_congr ⟨fun h => ⟨h.1, h.1.not_paused, h.2⟩, fun h => ⟨h.1, h.2.2⟩⟩
      · by_cases hover : (s.heap t.gate).PauseOver s.now
        · simpa [viewAfter, Overfills, Overtakes, hcur, hover] using
            ModelView.drain_capacityFifo hv ht hk s.now
        · simpa [viewAfter, Overfills, Overtakes, hcur, hover] using hk
    · simpa [viewAfter, Overfills, Overtakes, hm, Ne.symm hm] using hk
  | resetAll => exact he.elim
  | advance dt => simpa [viewAfter, Overfills, Overtakes] using hk

theorem viewAfter_tally {m : String} {k : ℕ} {s : RateLimitSemaphore} {e : Event}
    (hs : s.Tallied m) (he : FixedLimit m k e) :
    (s.viewAfter m e).Tally (s.calls + e.called) := by
  have hv := hs.sound.views m
  have ht := hs.tally
  cases e with
  | acquire modelStr options =>
    simp only [viewAfter]
    split
    · exact ht.acquire s.now options
    · exact ⟨ht.running, fun c hc => Nat.lt_succ_of_lt (ht.granted_lt c hc)⟩
  | release call modelStr =>
    simp only [viewAfter]
    split
    · next hheld => exact ModelView.Tally.release hv ht hheld.2 s.now
    · exact ht
  | timeout t =>
    simp only [viewAfter]
    split
    · exact ht.expire t.call
    · exact ht
  | markRateLimited modelStr cooldownMs =>
    simp only [viewAfter]
    split
    · exact ht.mark s.now cooldownMs
    · exact ht
  | delayedDrain t =>
    simp only [viewAfter]
    split
    · split
      · exact ht.delayedDrain hv s.now
      · split
        · exact ht.drain hv s.now
        · exact ht
    · exact ht
  | resetAll => exact he.elim
  | advance dt => exact ht

theorem Tallied.step {m : String} {k : ℕ} {s s' : RateLimitSemaphore} {e : Event}
    (hs : s.Tallied m) (he : FixedLimit m k e) (h : s.step e = some s') : s'.Tallied m := by
  obtain ⟨hsound, hview⟩ := hs.sound.step h
  refine ⟨hsound, ?_⟩
  rw [hview, (step_frame h).1]
  exact viewAfter_tally hs he

theorem start_tallied (m : String) (now : ℕ) : (start now).Tallied m :=
  ⟨Sound.start now, by simp [view, start], by simp [view, start]⟩

theorem start_capacityFifo (m : String) (k now : ℕ) : (start now).CapacityFifo m k :=
  ⟨by simp [view, start], by simp [view, start]⟩

/-! ## Runs -/

/-- **A model keeps its limit and serves in arrival order exactly when no step overfills its gate
or overtakes its queue.** The run may interleave acquisitions that all pass `k`, releases,
timeouts, marks and delayed drains in any order. -/
theorem capacityFifo_iff (m : String) (k now : ℕ) {es : List Event}
    (hes : ∀ e ∈ es, FixedLimit m k e) :
    Trace.Throughout step (CapacityFifo m k) (start now) es ↔
      Trace.Meets step (fun s e => ¬ s.Overfills m k e ∧ ¬ s.Overtakes m k e) (start now) es := by
  refine Trace.throughout_iff_meets_of (I := Tallied m) (fun s e s' hs he h => hs.step he h) ?_
    hes (start_tallied m now) (start_capacityFifo m k now)
  intro s e s' hs he hk h
  rw [CapacityFifo, (hs.sound.step h).2 m]
  exact viewAfter_capacityFifo hs hk he

/-- A call on "m" with one slot. -/
def single : Event := .acquire "m" { maxConcurrency := 1 }

/-- One holder, two calls waiting; the mark raises `max` to 3, and the release fills it. -/
def overfilled : List Event :=
  [single, single, single, .markRateLimited "m" 1000, .advance 1000, .release 0 "m"]

/-- The holder lets go during the pause; the next call comes after the pause and before the
delayed drain. -/
def overtaken : List Event :=
  [single, single, .markRateLimited "m" 1000, .release 0 "m", .advance 1000, single]

theorem fixedLimit_overfilled : ∀ e ∈ overfilled, FixedLimit "m" 1 e := by
  simp [overfilled, single, FixedLimit]

theorem fixedLimit_overtaken : ∀ e ∈ overtaken, FixedLimit "m" 1 e := by
  simp [overtaken, single, FixedLimit]

theorem capacityFifo_iff_overfilled :
    (∀ e ∈ overfilled, FixedLimit "m" 1 e) ∧
      (Trace.Throughout step (CapacityFifo "m" 1) (start 1) overfilled ↔
        Trace.Meets step (fun s e => ¬ s.Overfills "m" 1 e ∧ ¬ s.Overtakes "m" 1 e) (start 1)
          overfilled) :=
  ⟨fixedLimit_overfilled, capacityFifo_iff "m" 1 1 fixedLimit_overfilled⟩

/-- **A mark breaks the limit, and the end of a pause breaks the order**: with one slot, two
permits are out after the first run, and call 2 is granted before call 1 in the second. -/
theorem single_slot_broken :
    (∃ s, Trace.exec step (start 1) overfilled = some s ∧
      (∀ e ∈ overfilled, FixedLimit "m" 1 e) ∧ s.held = [(1, "m"), (2, "m")]) ∧
    ∃ s, Trace.exec step (start 1) overtaken = some s ∧
      (∀ e ∈ overtaken, FixedLimit "m" 1 e) ∧ (s.grants.map (·.call)) = [0, 2] ∧
      (s.waiterTimers.map (·.call)) = [1] :=
  ⟨⟨_, rfl, fixedLimit_overfilled, by decide⟩, ⟨_, rfl, fixedLimit_overtaken, by decide⟩⟩

end RateLimitSemaphore

end OmniRoute
