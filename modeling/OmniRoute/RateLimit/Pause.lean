import OmniRoute.RateLimit.Gates

/-!
# The pause of a rate-limited model

`markRateLimited` promises that new acquisitions of the model are blocked until the cooldown
expires. The pause is a field of the gate, and the gate goes when nobody holds a permit or waits:
the release of the last permit, the refusal of a call that may not wait, and the drain of a mark
made at an older gate all drop it, and a later mark with a shorter cooldown overwrites it.

**Main result (`pause_honoured`).** In a run after a mark, an acquisition is blocked in every
state until the cooldown expires exactly when no step of the run lifts the pause early, and then
no call on the model is granted before that time.
-/

namespace OmniRoute

open Option ModelView

/-! ## A paused gate -/

namespace ModelGate

variable {gate : ModelGate}

theorem isRateLimited_of_paused {now : ℕ} (h : gate.Paused now) :
    gate.isRateLimited now = (true, gate) := by
  obtain ⟨u, hu, hu0, hlt⟩ := h
  have hle : ¬ u ≤ ↑now := by omega
  simp [isRateLimited, hu, hu0, hle]

theorem hasSlot_of_paused {now : ℕ} (h : gate.Paused now) : gate.hasSlot now = (false, gate) := by
  unfold hasSlot
  split
  · rw [isRateLimited_of_paused h]
    rfl
  · rfl

theorem drainLoop_of_paused {now : ℕ} (h : gate.Paused now) :
    gate.drainLoop now gate.queue = ([], gate) := by
  cases hq : gate.queue with
  | nil => simp [drainLoop, ← hq]
  | cons next queue => simp [drainLoop, hasSlot_of_paused h, ← hq]

/-- A gate that takes the next call: it has no pause left and a slot is free. -/
theorem hasSlot_of_free {now : ℕ} (hp : ¬ gate.Paused now) (hlt : ↑gate.running < gate.max) :
    (gate.hasSlot now).1 = true :=
  (hasSlot_spec now gate).1.2 ⟨hlt, hp⟩

end ModelGate

namespace ModelView

/-- The gate is there, and its pause lasts at least until `deadline`. -/
def ShutUntil (deadline : ℤ) (v : ModelView) : Prop :=
  ∃ gate pausedUntil, v.gate = some gate ∧ gate.rateLimitedUntil = some pausedUntil ∧
    deadline ≤ pausedUntil

variable {deadline : ℤ} {now : ℕ} {v : ModelView}

theorem shutUntil_some {gate : ModelGate} {u : ℤ} (hg : v.gate = some gate)
    (hu : gate.rateLimitedUntil = some u) : v.ShutUntil deadline ↔ deadline ≤ u := by
  constructor
  · rintro ⟨gate', u', hg', hu', hle⟩
    obtain rfl := some.inj (hg.symm.trans hg')
    obtain rfl := some.inj (hu.symm.trans hu')
    exact hle
  · exact fun hle => ⟨gate, u, hg, hu, hle⟩

theorem not_shutUntil_none (hg : v.gate = none) : ¬ v.ShutUntil deadline := by
  rintro ⟨gate, u, hg', -⟩
  simp [hg] at hg'

theorem paused_of_deadline (gate : ModelGate) {u : ℤ} (hu : gate.rateLimitedUntil = some u)
    (hle : deadline ≤ u) (hnow : ↑now < deadline) : gate.Paused now :=
  ⟨u, hu, by omega, by omega⟩

/-- Settling a shut gate keeps it shut unless it is idle. -/
theorem shutUntil_settle (gate : ModelGate) {u : ℤ} (hu : gate.rateLimitedUntil = some u)
    (hle : deadline ≤ u) : (v.settle gate).ShutUntil deadline ↔ ¬ gate.Idle := by
  by_cases hidle : gate.Idle
  · simp only [hidle, not_true, iff_false]
    exact not_shutUntil_none (by simp [settle, hidle])
  · simp only [hidle, not_false_eq_true, iff_true]
    exact ⟨gate, u, by simp [settle, hidle], hu, hle⟩

/-- While the gate is shut a drain grants nothing; it may drop the gate. -/
theorem drain_of_paused {gate : ModelGate} (hg : v.gate = some gate) (hp : gate.Paused now) :
    v.drain now = v.settle gate := by
  have hnil : v.resolve [] = v := by simp [resolve]
  simp only [drain, hg, ModelGate.drainLoop_of_paused hp, hnil]

section Shut

variable (hs : v.ShutUntil deadline) (hnow : ↑now < deadline)
include hs hnow

theorem drain_shut : (v.drain now).grants = v.grants ∧
    ((v.drain now).ShutUntil deadline ↔ ¬ ∃ gate, v.gate = some gate ∧ gate.Idle) := by
  obtain ⟨gate, u, hg, hu, hle⟩ := hs
  rw [drain_of_paused hg (paused_of_deadline gate hu hle hnow), shutUntil_settle gate hu hle]
  exact ⟨rfl, by simp [hg]⟩

theorem acquire_shut (call : ℕ) (options : AcquireOptions) :
    (v.acquire now call options).grants = v.grants ∧
      ((v.acquire now call options).ShutUntil deadline ↔
        ¬ (options.maxQueueSize = some 0 ∧ ∃ gate, v.gate = some gate ∧ gate.Idle)) := by
  obtain ⟨gate, u, hg, hu, hle⟩ := hs
  have hlook : v.lookup options.maxConcurrency =
      { gate with max := options.maxConcurrency } := by simp [lookup, hg]
  have hp := paused_of_deadline (v.lookup options.maxConcurrency) (hlook ▸ hu) hle hnow
  have hidle : (v.lookup options.maxConcurrency).Idle ↔ gate.Idle := by
    simp [hlook, ModelGate.Idle]
  simp only [acquire, ModelGate.hasSlot_of_paused hp, Bool.false_eq_true, if_false]
  by_cases hfull : (v.lookup options.maxConcurrency).queueFull options.maxQueueSize = true
  · simp only [hfull, if_true]
    rw [shutUntil_settle _ (hlook ▸ hu) hle, hidle]
    refine ⟨rfl, not_congr ⟨fun h => ⟨?_, gate, hg, h⟩, ?_⟩⟩
    · cases hmax : options.maxQueueSize with
      | none => simp [ModelGate.queueFull, hmax] at hfull
      | some k =>
        have hbound : 0 ≤ k ∧ k ≤ 0 := by
          simpa [ModelGate.queueFull, hmax, hlook, h.2] using hfull
        exact congrArg some (le_antisymm hbound.2 hbound.1)
    · rintro ⟨-, gate', hg', h⟩
      exact some.inj (hg.symm.trans hg') ▸ h
  · simp only [hfull]
    refine ⟨rfl, ⟨fun _ => ?_, fun _ => ⟨_, u, rfl, hlook ▸ hu, hle⟩⟩⟩
    rintro ⟨hmax, gate', hg', h⟩
    obtain rfl := some.inj (hg.symm.trans hg')
    exact hfull (by simp [ModelGate.queueFull, hmax])

theorem release_shut (call : ℕ) : (v.release now call).grants = v.grants ∧
    ((v.release now call).ShutUntil deadline ↔
      ¬ ∃ gate, v.gate = some gate ∧ gate.running = 1 ∧ gate.queue = []) := by
  obtain ⟨gate, u, hg, hu, hle⟩ := hs
  have hiff : (∃ gate, v.gate = some gate ∧ gate.running = 1 ∧ gate.queue = []) ↔
      gate.running = 1 ∧ gate.queue = [] := by simp [hg]
  rw [hiff]
  by_cases hpos : 0 < gate.running
  · have hidle : ModelGate.Idle { gate with running := gate.running - 1 } ↔
        gate.running = 1 ∧ gate.queue = [] := by
      simp only [ModelGate.Idle, and_congr_left_iff]
      omega
    have hp : ModelGate.Paused now { gate with running := gate.running - 1 } :=
      paused_of_deadline _ hu hle hnow
    have hrel : v.release now call =
        { v with held := v.held.erase call }.settle { gate with running := gate.running - 1 } := by
      simp only [release, hg, hpos, if_true]
      split
      · next hid => simp [settle, hid]
      · exact drain_of_paused (v := ⟨_, v.grants, v.held.erase call, v.waiting⟩) rfl hp
    rw [hrel]
    exact ⟨rfl, (shutUntil_settle { gate with running := gate.running - 1 } hu hle).trans
      (not_congr hidle)⟩
  · have hrel : v.release now call = { v with held := v.held.erase call } := by
      simp [release, hg, hpos]
    rw [hrel]
    exact ⟨rfl, iff_of_true ⟨gate, u, hg, hu, hle⟩ fun h => hpos (by omega)⟩

theorem delayedDrain_shut : v.delayedDrain now = v := by
  obtain ⟨gate, u, hg, hu, hle⟩ := hs
  have hover : ¬ gate.PauseOver now := by
    rintro ⟨u', hu', -, hle'⟩
    obtain rfl := some.inj (hu.symm.trans hu')
    omega
  simp [delayedDrain, hg, hover]

omit hnow in
theorem expire_shut (call : ℕ) :
    (v.expire call).grants = v.grants ∧ (v.expire call).ShutUntil deadline := by
  obtain ⟨gate, u, hg, hu, hle⟩ := hs
  exact ⟨rfl, { gate with queue := gate.queue.erase call }, u, by simp [expire, hg], hu, hle⟩

end Shut

theorem mark_shut (deadline : ℤ) (now : ℕ) (cooldownMs : ℤ) (v : ModelView) :
    (v.mark now cooldownMs).grants = v.grants ∧
    ((v.mark now cooldownMs).ShutUntil deadline ↔ ¬ now + cooldownMs < deadline) :=
  ⟨rfl, (shutUntil_some rfl rfl).trans not_lt.symm⟩

end ModelView

namespace RateLimitSemaphore

/-- Until `deadline`, no wait followed by an acquisition of `m` is granted. -/
def Blocked (m : String) (deadline : ℤ) (s : RateLimitSemaphore) : Prop :=
  ∀ wait options s₁ s₂, s.step (.advance wait) = some s₁ →
    s₁.step (.acquire m options) = some s₂ → ↑s₁.now < deadline →
      (s₂.view m).grants = (s₁.view m).grants

/-- The event takes the pause of `m` away, or shortens it, before `deadline`. -/
def LiftsPause (m : String) (deadline : ℤ) (s : RateLimitSemaphore) (e : Event) : Prop :=
  ↑s.now < deadline ∧
    match e with
    | .acquire modelStr options =>
        modelStr = m ∧ options.maxQueueSize = some 0 ∧
          ∃ gate, (s.view m).gate = some gate ∧ gate.Idle
    | .release call modelStr =>
        modelStr = m ∧ call ∈ (s.view m).held ∧
          ∃ gate, (s.view m).gate = some gate ∧ gate.running = 1 ∧ gate.queue = []
    | .markRateLimited modelStr cooldownMs => modelStr = m ∧ s.now + cooldownMs < deadline
    | .delayedDrain t =>
        t.model = m ∧ s.gates.get m ≠ some t.gate ∧ (s.heap t.gate).PauseOver s.now ∧
          ∃ gate, (s.view m).gate = some gate ∧ gate.Idle
    | .resetAll => True
    | .timeout _ => False
    | .advance _ => False

/-- The pause of `m` is on record at least until `deadline`, while that is to come. -/
def Shut (m : String) (deadline : ℤ) (s : RateLimitSemaphore) : Prop :=
  ↑s.now < deadline → (s.view m).ShutUntil deadline

/-! ## The step lemma -/

variable {s : RateLimitSemaphore} {deadline : ℤ}

/-- From a shut gate an event grants nothing on the model, and it leaves the gate shut exactly
when it does not lift the pause. -/
theorem viewAfter_shut {m : String} (e : Event) (hs : (s.view m).ShutUntil deadline)
    (hnow : ↑s.now < deadline) :
    (s.viewAfter m e).grants = (s.view m).grants ∧
      ((s.viewAfter m e).ShutUntil deadline ↔ ¬ s.LiftsPause m deadline e) := by
  cases e with
  | acquire modelStr options =>
    by_cases hm : m = modelStr
    · subst hm
      simpa [viewAfter, LiftsPause, hnow] using acquire_shut hs hnow s.calls options
    · simpa [viewAfter, LiftsPause, hm, Ne.symm hm] using hs
  | release call modelStr =>
    by_cases hm : m = modelStr
    · subst hm
      by_cases hheld : call ∈ (s.view m).held
      · simpa [viewAfter, LiftsPause, hnow, hheld] using release_shut hs hnow call
      · simpa [viewAfter, LiftsPause, hheld] using hs
    · simpa [viewAfter, LiftsPause, hm, Ne.symm hm] using hs
  | timeout t =>
    by_cases hm : m = t.model
    · simpa [viewAfter, LiftsPause, hm] using expire_shut (hm ▸ hs) t.call
    · simpa [viewAfter, LiftsPause, hm] using hs
  | markRateLimited modelStr cooldownMs =>
    by_cases hm : m = modelStr
    · subst hm
      simpa [viewAfter, LiftsPause, hnow] using mark_shut deadline s.now cooldownMs (s.view m)
    · simpa [viewAfter, LiftsPause, hm, Ne.symm hm] using hs
  | delayedDrain t =>
    by_cases hm : m = t.model
    · subst hm
      by_cases hcur : s.gates.get t.model = some t.gate
      · rw [viewAfter, if_pos rfl, if_pos hcur, delayedDrain_shut hs hnow]
        exact ⟨rfl, iff_of_true hs fun h => h.2.2.1 hcur⟩
      · by_cases hover : (s.heap t.gate).PauseOver s.now
        · simpa [viewAfter, LiftsPause, hnow, hcur, hover] using drain_shut hs hnow
        · simpa [viewAfter, LiftsPause, hcur, hover] using hs
    · simpa [viewAfter, LiftsPause, hm, Ne.symm hm] using hs
  | resetAll =>
    refine ⟨rfl, iff_of_false (not_shutUntil_none rfl) fun h => h ⟨hnow, trivial⟩⟩
  | advance dt => exact ⟨rfl, iff_of_true hs fun h => h.2⟩

theorem step_shut_iff {m : String} (s : RateLimitSemaphore) (e : Event) (s' : RateLimitSemaphore)
    (hs : s.Sound) (hshut : s.Shut m deadline) (h : s.step e = some s') :
    s'.Shut m deadline ↔ ¬ s.LiftsPause m deadline e := by
  have hnow := (step_frame h).2.1
  have hview := (hs.step h).2 m
  by_cases hopen : ↑s.now < deadline
  · rw [← (viewAfter_shut e (hshut hopen) hopen).2, ← hview]
    refine ⟨fun hs' => ?_, fun hv _ => hv⟩
    cases e with
    | advance dt => exact hview ▸ hshut hopen
    | _ => exact hs' (by simpa [hnow, Event.elapsed] using hopen)
  · exact iff_of_true (fun h' => absurd h' (by omega)) fun h' => hopen h'.1

/-! ## Blocked acquisitions -/

/-- A view whose gate is not shut takes a call before the deadline, after some wait. -/
theorem exists_grant_of_not_shut {v : ModelView} {now : ℕ} (hnow : ↑now < deadline)
    (hshut : ¬ v.ShutUntil deadline) :
    ∃ (wait : ℕ) (options : AcquireOptions), ↑(now + wait) < deadline ∧
      ∀ call, (v.acquire (now + wait) call options).grants ≠ v.grants := by
  have hfree : ∃ wait : ℕ, ↑(now + wait) < deadline ∧
      ∀ gate, v.gate = some gate → ¬ gate.Paused (now + wait) := by
    cases hg : v.gate with
    | none => exact ⟨0, hnow, by simp⟩
    | some gate =>
      cases hu : gate.rateLimitedUntil with
      | none =>
        refine ⟨0, hnow, ?_⟩
        rintro gate' hg' ⟨u', hu', -⟩
        cases hg'
        simp [hu] at hu'
      | some u =>
        have hlt : u < deadline := not_le.1 fun hle => hshut ⟨gate, u, hg, hu, hle⟩
        refine ⟨(u - now).toNat, by omega, ?_⟩
        rintro gate' hg' ⟨u', hu', -, hlt'⟩
        cases hg'
        obtain rfl := some.inj (hu.symm.trans hu')
        omega
  obtain ⟨wait, hwait, hfree⟩ := hfree
  refine ⟨wait, { maxConcurrency := (v.gate.map (·.running)).getD 0 + 1 }, hwait, fun call => ?_⟩
  have hslot : ((v.lookup ((v.gate.map (·.running)).getD 0 + 1)).hasSlot (now + wait)).1 = true := by
    cases hg : v.gate with
    | none =>
      refine ModelGate.hasSlot_of_free ?_ (by simp [ModelView.lookup, hg, ModelGate.fresh])
      simp [ModelView.lookup, hg, ModelGate.fresh, ModelGate.Paused]
    | some gate =>
      have hlt : (gate.running : ℤ) < gate.running + 1 := by omega
      refine ModelGate.hasSlot_of_free ?_ (by rw [ModelView.lookup, hg]; exact hlt)
      simpa [ModelView.lookup, hg, ModelGate.Paused] using hfree gate hg
  simp [ModelView.acquire, hslot, ModelView.resolve]

/-- Acquisitions are blocked up to the deadline exactly while the pause is on record. -/
theorem blocked_iff_shut {m : String} (hs : s.Sound) :
    s.Blocked m deadline ↔ s.Shut m deadline := by
  constructor
  · intro hblocked hnow
    by_contra hshut
    obtain ⟨wait, options, hwait, hgrant⟩ := exists_grant_of_not_shut hnow hshut
    obtain ⟨s₁, h₁⟩ : ∃ s₁, s.step (.advance wait) = some s₁ := ⟨_, rfl⟩
    obtain ⟨s₂, h₂⟩ : ∃ s₂, s₁.step (.acquire m options) = some s₂ := ⟨_, rfl⟩
    obtain rfl := some.inj h₁
    have hgrants := hblocked wait options _ s₂ h₁ h₂ hwait
    rw [((hs.step h₁).1.step h₂).2 m, viewAfter, if_pos rfl] at hgrants
    exact hgrant s.calls hgrants
  · intro hshut wait options s₁ s₂ h₁ h₂ hnow
    have hshut₁ := (step_shut_iff s _ s₁ hs hshut h₁).2 fun h => h.2
    rw [((hs.step h₁).1.step h₂).2 m]
    exact (viewAfter_shut _ (hshut₁ hnow) hnow).1

/-! ## Runs after a mark -/

/-- Every call granted on `m` was granted in `s₀`, or after the deadline. -/
def GrantsAfter (m : String) (deadline : ℤ) (s₀ s : RateLimitSemaphore) : Prop :=
  ∀ g ∈ s.grants, g.model = m → g ∈ s₀.grants ∨ deadline ≤ g.time

theorem step_grantsAfter {m : String} {s₀ s' : RateLimitSemaphore} {e : Event} (hs : s.Sound)
    (hshut : s.Shut m deadline) (hold : GrantsAfter m deadline s₀ s) (h : s.step e = some s') :
    GrantsAfter m deadline s₀ s' := by
  obtain ⟨-, -, new, hgrants, htime⟩ := step_frame h
  intro g hg hm
  rcases List.mem_append.1 (hgrants ▸ hg) with hg | hg
  · exact hold g hg hm
  · by_cases hnow : ↑s.now < deadline
    · have hview := (viewAfter_shut e (hshut hnow) hnow).1
      rw [← (hs.step h).2 m] at hview
      have hnil : (new.filter (·.model = m)).map (·.call) = [] := by
        simpa [view, hgrants] using hview
      have hmem : g ∈ new.filter (·.model = m) := List.mem_filter.2 ⟨hg, by simpa using hm⟩
      rw [List.map_eq_nil_iff.1 hnil] at hmem
      cases hmem
    · exact Or.inr (htime g hg ▸ not_lt.1 hnow)

theorem shut_after_mark {m : String} {cooldownMs : ℤ} {s₀ : RateLimitSemaphore} (hs : s.Sound)
    (hmark : s.step (.markRateLimited m cooldownMs) = some s₀) :
    s₀.Shut m (s.now + cooldownMs) := by
  intro _
  rw [(hs.step hmark).2 m, viewAfter, if_pos rfl]
  exact (mark_shut _ s.now cooldownMs _).2.2 (lt_irrefl _)

/-- **The pause of a marked model is honoured exactly when no step lifts it.** After
`markRateLimited m cooldownMs` at time `t`, acquisitions of `m` are blocked until
`t + cooldownMs` in every state of a run if and only if no step of the run lifts the pause, and
in such a run no call on `m` is granted before that time. -/
theorem pause_honoured {m : String} {cooldownMs : ℤ} {s s₀ : RateLimitSemaphore}
    (hs : s.Reachable) (hmark : s.step (.markRateLimited m cooldownMs) = some s₀)
    (es : List Event) :
    (Trace.Throughout step (Blocked m (s.now + cooldownMs)) s₀ es ↔
        Trace.Meets step (fun s' e => ¬ LiftsPause m (s.now + cooldownMs) s' e) s₀ es) ∧
      (Trace.Meets step (fun s' e => ¬ LiftsPause m (s.now + cooldownMs) s' e) s₀ es →
        ∀ s', Trace.exec step s₀ es = some s' → GrantsAfter m (s.now + cooldownMs) s₀ s') := by
  have hsound := (hs.sound.step hmark).1
  have hshut := shut_after_mark hs.sound hmark
  constructor
  · refine Trace.throughout_iff_meets (fun s e s' hs h => (hs.step h).1) ?_ es hsound
      ((blocked_iff_shut hsound).2 hshut)
    intro s₁ e s₂ hs₁ hb h
    rw [blocked_iff_shut (hs₁.step h).1]
    exact step_shut_iff s₁ e s₂ hs₁ ((blocked_iff_shut hs₁).1 hb) h
  · intro hok s' h
    refine (Trace.exec_invariant_of_meets (I := fun s' => s'.Sound ∧
      s'.Shut m (s.now + cooldownMs) ∧ GrantsAfter m (s.now + cooldownMs) s₀ s') ?_
        ⟨hsound, hshut, fun g hg _ => Or.inl hg⟩ hok h).2.2
    rintro s₁ e s₂ ⟨hs₁, hshut₁, hg₁⟩ hlift h₁
    exact ⟨(hs₁.step h₁).1, (step_shut_iff s₁ e s₂ hs₁ hshut₁ h₁).2 hlift,
      step_grantsAfter hs₁ hshut₁ hg₁ h₁⟩

/-- A state in which one call on the model holds a permit. -/
def oneHolder : RateLimitSemaphore :=
  { (start 1).acquireAs 0 "m" {} with calls := 1 }

/-- The path a 429 takes: the holder is told of the limit, marks the model, and lets go; the next
call arrives one millisecond later. -/
def marked : List Event := [.release 0 "m", .advance 1, .acquire "m" {}]

theorem oneHolder_reachable : oneHolder.Reachable := ⟨1, [.acquire "m" {}], rfl⟩

theorem pause_honoured_marked :
    ∃ s₀, oneHolder.step (.markRateLimited "m" 1000) = some s₀ ∧
      (Trace.Throughout step (Blocked "m" (oneHolder.now + 1000)) s₀ marked ↔
        Trace.Meets step (fun s' e => ¬ LiftsPause "m" (oneHolder.now + 1000) s' e) s₀ marked) :=
  ⟨_, rfl, (pause_honoured oneHolder_reachable rfl marked).1⟩

/-- **The pause is lost with the last permit**: a model marked for a second at time 1 grants a
call at time 2. -/
theorem marked_grants_early :
    ∃ s₀ s', oneHolder.Reachable ∧ oneHolder.step (.markRateLimited "m" 1000) = some s₀ ∧
      Trace.exec step s₀ marked = some s' ∧ .resetAll ∉ marked ∧
      ⟨1, "m", 2⟩ ∈ s'.grants ∧ ⟨1, "m", 2⟩ ∉ s₀.grants ∧ oneHolder.now < 2 ∧
      2 < oneHolder.now + 1000 := by
  refine ⟨_, _, oneHolder_reachable, rfl, rfl, by simp [marked], ?_⟩
  decide

end RateLimitSemaphore

end OmniRoute
