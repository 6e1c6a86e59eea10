import OmniRoute.Admission.Direction

/-!
# The utilization of a window

The controller integrates the active cost, capped at the limit, whenever it is about to change,
and divides the integral by the length of the window when it closes it. Over the rationals, on a
clock that does not go back, the samples add up to the integral exactly, short of the largest safe
integer.

**Main result (`timeAverage_iff`).** A window of constant limit closes with the time average of
the capped active cost when it closes within its configured length, and when it was never or always
full. A late window divides by the configured length instead of its own.
-/

namespace OmniRoute

open JsNumber Trace AdmissionController Prod List

/-! ## Sampling -/

theorem floor_div_lt_iff {bounded dt : ℤ} (h : 0 < bounded) :
    ((floor (div (lit maxSafeInteger) (lit bounded) : ℚ) : ℕ) : ℤ) < dt ↔
      maxSafeInteger < bounded * dt := by
  have hbounded : (0 : ℚ) < bounded := by exact_mod_cast h
  have hsafe : (0 : ℚ) ≤ (maxSafeInteger : ℚ) := by exact_mod_cast (by decide : 0 ≤ maxSafeInteger)
  have hfloor : ((floor (div (lit maxSafeInteger) (lit bounded) : ℚ) : ℕ) : ℤ) =
      ⌊(maxSafeInteger : ℚ) / bounded⌋ :=
    Int.toNat_of_nonneg (Int.floor_nonneg.2 (div_nonneg hsafe hbounded.le))
  rw [hfloor, Int.floor_lt, div_lt_iff₀ hbounded, mul_comm]
  exact_mod_cast Iff.rfl

/-- A sample adds its share of the integral, up to the largest safe integer. -/
theorem sampleActiveIntegral_integral (state : AdaptationState ℚ) {cost dt : ℤ}
    (hlimit : 0 < state.currentLimit) (hcost : 0 ≤ cost) (hdt : 0 ≤ dt)
    (hintegral : 0 ≤ state.windowActiveCostIntegral ∧
      state.windowActiveCostIntegral ≤ maxSafeInteger) :
    (sampleActiveIntegral state cost dt).windowActiveCostIntegral =
      Min.min maxSafeInteger
        (state.windowActiveCostIntegral + Min.min cost state.currentLimit * dt) := by
  rw [sampleActiveIntegral]
  by_cases hnone : dt ≤ 0 ∨ cost ≤ 0
  · have hzero : Min.min cost state.currentLimit * dt = 0 := by
      rcases hnone with hdt' | hcost'
      · rw [le_antisymm hdt' hdt, mul_zero]
      · rw [le_antisymm hcost' hcost, min_eq_left hlimit.le, zero_mul]
    rw [if_pos hnone, hzero, add_zero, min_eq_right hintegral.2]
  · rw [if_neg hnone]
    have hbounded : 0 < Min.min cost state.currentLimit := lt_min (by omega) hlimit
    simp only [floor_div_lt_iff hbounded]
    have hshare : 0 ≤ Min.min cost state.currentLimit * dt := mul_nonneg hbounded.le hdt
    generalize Min.min cost state.currentLimit * dt = share at hshare ⊢
    split_ifs <;> omega

namespace AdmissionController

/-- The integral as the next sample would leave it. -/
def sampled {F : Type} [JsNumber F] (s : AdmissionController F) : ℤ :=
  s.sampleIntegral.adaptation.windowActiveCostIntegral

/-- What the integral grows by in a unit of time: `min(activeCost, currentLimit)`. -/
def load {F : Type} [JsNumber F] (s : AdmissionController F) : ℤ :=
  Min.min s.activeCost s.adaptation.currentLimit

/-- The meter is in range, and has not been read in the future. -/
structure Metered (s : AdmissionController ℚ) : Prop where
  nonneg : 0 ≤ s.adaptation.windowActiveCostIntegral
  safe : s.adaptation.windowActiveCostIntegral ≤ maxSafeInteger
  past : s.lastSampleMs ≤ s.now

variable {s : AdmissionController ℚ}

theorem sampled_eq (h : Metered s) (hlimit : 0 < s.adaptation.currentLimit)
    (hcost : 0 ≤ s.activeCost) :
    s.sampled = Min.min maxSafeInteger
      (s.adaptation.windowActiveCostIntegral + s.load * (s.now - s.lastSampleMs)) := by
  have hpast := h.past
  have hactive : (if s.adaptation.currentLimit ≤ s.activeCost then s.adaptation.currentLimit
      else s.activeCost) = s.load := by
    rw [load]
    split_ifs <;> omega
  have hload : Min.min s.load s.adaptation.currentLimit = s.load := min_eq_left (min_le_right _ _)
  rw [sampled, sampleIntegral]
  dsimp only
  rw [hactive]
  by_cases hlate : 0 < s.now - s.lastSampleMs
  · have hsample := sampleActiveIntegral_integral s.adaptation hlimit
      (show 0 ≤ s.load from le_min hcost hlimit.le) hlate.le ⟨h.nonneg, h.safe⟩
    rw [if_pos hlate, hsample, hload]
  · have hsame : s.now - s.lastSampleMs = 0 := by omega
    rw [if_neg hlate, hsame, mul_zero, add_zero, min_eq_right h.safe]

theorem Metered.sampled (h : Metered s) (hlimit : 0 < s.adaptation.currentLimit)
    (hcost : 0 ≤ s.activeCost) : 0 ≤ s.sampled ∧ s.sampled ≤ maxSafeInteger := by
  have hload : 0 ≤ s.load := le_min hcost hlimit.le
  have hshare : 0 ≤ s.load * (s.now - s.lastSampleMs) :=
    mul_nonneg hload (sub_nonneg.2 h.past)
  have hsafe : 0 ≤ maxSafeInteger := by decide
  have hnonneg := h.nonneg
  rw [sampled_eq h hlimit hcost]
  omega

theorem sample_lastSampleMs (h : s.lastSampleMs ≤ s.now) :
    s.sampleIntegral.lastSampleMs = s.now := by
  rw [sampleIntegral]
  dsimp only
  split
  · rfl
  · next hnow => exact le_antisymm h (by omega)

/-! ## One step -/

variable {t : AdmissionController ℚ}

/-- An operation keeps the meter in range and what is sampled next. -/
theorem Accrues.metered (h : Accrues s t) (hs : Metered s) (hlimit : 0 < s.adaptation.currentLimit)
    (hcost : 0 ≤ s.activeCost) : Metered t ∧ t.sampled = s.sampled := by
  obtain ⟨hmeter, hactive⟩ | hmeter := h.meter
  · have hintegral : t.adaptation.windowActiveCostIntegral =
        s.adaptation.windowActiveCostIntegral := congrArg fst hmeter
    have hlast : t.lastSampleMs = s.lastSampleMs := congrArg snd hmeter
    refine ⟨⟨hintegral ▸ hs.nonneg, hintegral ▸ hs.safe, ?_⟩, ?_⟩
    · rw [hlast, h.now]
      exact hs.past
    · have hsame := sample_congr (s := s) (t := t)
        (by simp only [AdmissionController.metered, h.limit, hactive, h.now, hmeter])
      exact congrArg fst hsame
  · have hintegral : t.adaptation.windowActiveCostIntegral = s.sampled := congrArg fst hmeter
    have hlast : t.lastSampleMs = t.now := by
      rw [h.now, ← sample_lastSampleMs hs.past]
      exact congrArg snd hmeter
    obtain ⟨hnonneg, hsafe⟩ := hs.sampled hlimit hcost
    refine ⟨⟨hintegral ▸ hnonneg, hintegral ▸ hsafe, hlast.le⟩, ?_⟩
    rw [sampled, sample_of_now_le hlast.ge]
    exact hintegral

/-- The integral grows with the clock. -/
theorem sampled_clock (hs : Metered s) {now : ℤ} (hnow : s.now ≤ now)
    (hlimit : 0 < s.adaptation.currentLimit) (hcost : 0 ≤ s.activeCost) :
    Metered { s with now } ∧ ({ s with now } : AdmissionController ℚ).sampled =
      Min.min maxSafeInteger (s.sampled + s.load * (now - s.now)) := by
  have hlater : Metered { s with now } := ⟨hs.nonneg, hs.safe, hs.past.trans hnow⟩
  refine ⟨hlater, ?_⟩
  have hload : 0 ≤ s.load := le_min hcost hlimit.le
  have hgrowth : 0 ≤ s.load * (now - s.now) := mul_nonneg hload (sub_nonneg.2 hnow)
  have hsplit : s.load * (now - s.lastSampleMs) =
      s.load * (s.now - s.lastSampleMs) + s.load * (now - s.now) := by ring
  have hnow' : ({ s with now } : AdmissionController ℚ).load = s.load := rfl
  rw [sampled_eq hlater hlimit hcost, sampled_eq hs hlimit hcost, hnow']
  dsimp only
  rw [hsplit]
  omega

theorem metered_congr {u : AdmissionController ℚ} (h : u.metered = s.metered) (hs : Metered s) :
    Metered u ∧ u.sampled = s.sampled := by
  have hsample := sample_congr h
  simp only [metered, meter, Prod.mk.injEq] at h
  obtain ⟨-, -, hnow, hintegral, hlast⟩ := h
  refine ⟨⟨hintegral ▸ hs.nonneg, hintegral ▸ hs.safe, ?_⟩, congrArg Prod.fst hsample⟩
  rw [hlast, hnow]
  exact hs.past

theorem Reachable.limit_pos (h : s.Reachable) : 0 < s.adaptation.currentLimit :=
  s.config.minLimit_pos.trans_le h.ledger.minLimit_le

theorem Reachable.activeCost_nonneg (h : s.Reachable) : 0 ≤ s.activeCost := by
  rw [h.ledger.cost, OrdMap.tally]
  refine sum_nonneg ?_
  intro cost hcost
  obtain ⟨p, hp, rfl⟩ := mem_map.1 hcost
  exact (h.ledger.leases p hp).2.le

/-- An observed pressure leaves a state with the same meter, up to the limit, and dispatches. -/
theorem observePressure_cases (s : AdmissionController ℚ) (pressure : AdmissionPressure) :
    ∃ u : AdmissionController ℚ, Accrues u (s.observePressure pressure) ∧ u.meter = s.meter ∧
      u.activeCost = s.activeCost ∧ u.now = s.now ∧ u.config = s.config ∧
      u.adaptation.windowStartMs = s.adaptation.windowStartMs := by
  have hmeasures := measures_setPressure s.adaptation pressure
  have hmeter : ∀ limit consumed, meter { s with adaptation :=
      { setPressure s.adaptation pressure with
        currentLimit := limit
        criticalDecreaseConsumed := consumed } } = s.meter := by
    intro limit consumed
    simp only [meter, hmeasures.integral]
  rw [observePressure]
  dsimp only
  split
  · exact ⟨_, .dispatches _, hmeter _ _, rfl, rfl, rfl, hmeasures.windowStart⟩
  · exact ⟨_, .refl _, hmeter _ _, rfl, rfl, rfl, hmeasures.windowStart⟩

/-! ## A window -/

/-- What an event adds to the integral of the load. -/
def growth (s : AdmissionController ℚ) : AdmissionEvent ℚ → ℤ
  | .clock now => s.load * (now - s.now)
  | _ => 0

/-- The integral of `min(activeCost, currentLimit)` over the time of a run. -/
def busyTime (s : AdmissionController ℚ) : List (AdmissionEvent ℚ) → ℤ
  | [] => 0
  | e :: es => s.growth e +
      match s.step e with
      | none => 0
      | some t => busyTime t es

/-- The clock does not go back. -/
def Forward (s : AdmissionController ℚ) : AdmissionEvent ℚ → Prop
  | .clock now => s.now ≤ now
  | _ => True

/-- What one event within a window does to the meter and the clock. -/
structure Elapses (s : AdmissionController ℚ) (e : AdmissionEvent ℚ) (t : AdmissionController ℚ) :
    Prop where
  metered : Metered t
  sampled : t.sampled = Min.min maxSafeInteger (s.sampled + s.growth e)
  config : t.config = s.config
  windowStart : t.adaptation.windowStartMs = s.adaptation.windowStartMs
  growth_nonneg : 0 ≤ s.growth e
  growth_le : s.growth e ≤ s.adaptation.currentLimit * (t.now - s.now)
  forward : s.now ≤ t.now

variable {e : AdmissionEvent ℚ}

theorem inWindow_elapses (hs : s.Reachable) (hm : Metered s) (he : InWindow e) (hf : s.Forward e)
    (h : s.step e = some t) (hlimit : t.adaptation.currentLimit = s.adaptation.currentLimit) :
    Elapses s e t := by
  have hpos := hs.limit_pos
  have hcost := hs.activeCost_nonneg
  have hsampled := hm.sampled hpos hcost
  have hquiet : ∀ u : AdmissionController ℚ, u.sampled = s.sampled →
      u.sampled = Min.min maxSafeInteger (s.sampled + 0) := by
    intro u hu
    omega
  by_cases hin : Inside e
  · have haccrues := Accrues.step hs.books.sound hin h
    obtain ⟨hmetered, hsame⟩ := haccrues.metered hm hpos hcost
    have hgrowth : s.growth e = 0 := by
      cases e <;> first | rfl | exact hin.elim
    refine ⟨hmetered, ?_, haccrues.config, haccrues.windowStart, hgrowth.ge, ?_, haccrues.now.ge⟩
    · rw [hgrowth]
      exact hquiet t hsame
    · rw [hgrowth, haccrues.now, sub_self, mul_zero]
  cases e with
  | clock now =>
    cases h
    obtain ⟨hmetered, hgrown⟩ := sampled_clock hm hf hpos hcost
    have hload : 0 ≤ s.load := le_min hcost hpos.le
    have hdt : 0 ≤ now - s.now := sub_nonneg.2 hf
    refine ⟨hmetered, hgrown, rfl, rfl, mul_nonneg hload hdt, ?_, hf⟩
    exact mul_le_mul_of_nonneg_right (min_le_right _ _) hdt
  | observePressure pressure =>
    cases h
    obtain ⟨u, haccrues, hmeter, hactive, hnow, hconfig, hstart⟩ := observePressure_cases s pressure
    have hsame : u.metered = s.metered := by
      simp only [metered, ← haccrues.limit, hlimit, hmeter, hactive, hnow]
    obtain ⟨hu, hsampled'⟩ := metered_congr hsame hm
    obtain ⟨hmetered, hkept⟩ := haccrues.metered hu (by rw [← haccrues.limit, hlimit]; exact hpos)
      (by rw [hactive]; exact hcost)
    refine ⟨hmetered, hquiet _ (hkept.trans hsampled'), haccrues.config.trans hconfig,
      haccrues.windowStart.trans hstart, le_rfl, ?_, (haccrues.now.trans hnow).ge⟩
    rw [haccrues.now, hnow, sub_self, mul_zero]
    exact le_rfl
  | tick => exact he.elim
  | windowTimer => exact he.elim
  | updateConfig config => exact he.elim
  | _ => exact absurd trivial hin

/-- What a run within a window does to the meter and the clock. -/
structure Ran (s : AdmissionController ℚ) (es : List (AdmissionEvent ℚ))
    (t : AdmissionController ℚ) : Prop where
  metered : Metered t
  sampled : t.sampled = Min.min maxSafeInteger (s.sampled + s.busyTime es)
  config : t.config = s.config
  windowStart : t.adaptation.windowStartMs = s.adaptation.windowStartMs
  limit : t.adaptation.currentLimit = s.adaptation.currentLimit
  busy_nonneg : 0 ≤ s.busyTime es
  busy_le : s.busyTime es ≤ s.adaptation.currentLimit * (t.now - s.now)
  forward : s.now ≤ t.now

theorem inWindow_ran {es : List (AdmissionEvent ℚ)} {limit : ℤ} (hs : s.Reachable) (hm : Metered s)
    (hes : ∀ e ∈ es, InWindow e) (hf : Trace.Meets step Forward s es)
    (hlimit : Trace.Throughout step (fun s => s.adaptation.currentLimit = limit) s es)
    (h : exec step s es = some t) : Ran s es t := by
  induction es generalizing s with
  | nil =>
    cases h
    have hsampled := hm.sampled hs.limit_pos hs.activeCost_nonneg
    refine ⟨hm, ?_, rfl, rfl, rfl, le_rfl, ?_, le_rfl⟩
    · rw [busyTime]
      omega
    · rw [busyTime, sub_self, mul_zero]
  | cons e es ih =>
    obtain ⟨u, hu, hrun⟩ := exec_cons.1 h
    have hreach : u.Reachable := hs.step hu
    have hsame : u.adaptation.currentLimit = s.adaptation.currentLimit :=
      (hlimit.2 u hu).head.trans hlimit.1.symm
    have hstep := inWindow_elapses hs hm (hes e mem_cons_self) (hf u hu).1 hu hsame
    have hrest := ih hreach hstep.metered (fun e he => hes e (mem_cons_of_mem _ he))
      (hf u hu).2 (hlimit.2 u hu) hrun
    have hbusy : s.busyTime (e :: es) = s.growth e + u.busyTime es := by
      rw [busyTime, hu]
    have hgrowth := hstep.growth_nonneg
    have hbusy' := hrest.busy_nonneg
    refine ⟨hrest.metered, ?_, hrest.config.trans hstep.config,
      hrest.windowStart.trans hstep.windowStart, hrest.limit.trans hsame, ?_, ?_,
      hstep.forward.trans hrest.forward⟩
    · rw [hrest.sampled, hstep.sampled, hbusy]
      omega
    · omega
    · have hle := hrest.busy_le
      rw [hsame] at hle
      calc
        s.busyTime (e :: es) = s.growth e + u.busyTime es := hbusy
        _ ≤ s.adaptation.currentLimit * (u.now - s.now) +
            s.adaptation.currentLimit * (t.now - u.now) := add_le_add hstep.growth_le hle
        _ = s.adaptation.currentLimit * (t.now - s.now) := by ring

/-! ## The start of a window -/

/-- A window has just been started. -/
structure Opened (s : AdmissionController ℚ) : Prop where
  metered : Metered s
  sampled : s.sampled = 0
  start : s.adaptation.windowStartMs = s.now

/-- The event starts a window. -/
def Starts : AdmissionEvent ℚ → Prop
  | .tick | .windowTimer => True
  | .updateConfig config => ∃ next, validateConfig config = .ok next
  | _ => False

/-- An empty meter that was read now, and whatever is dispatched then. -/
theorem Accrues.opened (h : Accrues s t) (hintegral : s.adaptation.windowActiveCostIntegral = 0)
    (hlast : s.lastSampleMs = s.now) (hstart : s.adaptation.windowStartMs = s.now) : Opened t := by
  have hmeter : t.meter = (0, s.now) := by
    have hs : s.meter = (0, s.now) := by rw [AdmissionController.meter, hintegral, hlast]
    obtain ⟨hmeter, -⟩ | hmeter := h.meter
    · exact hmeter.trans hs
    · rw [hmeter, sample_of_now_le hlast.ge, hs]
  have hintegral' : t.adaptation.windowActiveCostIntegral = 0 := congrArg fst hmeter
  have hlast' : t.lastSampleMs = t.now := (congrArg snd hmeter).trans h.now.symm
  refine ⟨⟨hintegral'.ge, ?_, hlast'.le⟩, ?_, ?_⟩
  · rw [hintegral']
    decide
  · rw [sampled, sample_of_now_le hlast'.ge, hintegral']
  · rw [h.windowStart, hstart, h.now]

theorem Accrues.armWindowTimer {F : Type} [JsNumber F] (s : AdmissionController F) :
    Accrues s s.armWindowTimer := by
  rw [AdmissionController.armWindowTimer]
  split <;> exact .frame rfl

theorem Accrues.requeue {F : Type} [JsNumber F] (s : AdmissionController F)
    (entry : QueueEntry QueuedPayload) : Accrues s (s.requeue entry) := by
  have hfail : ∀ code message, Accrues s (s.failQueued entry code message) :=
    fun code message => .evictsOnly (failAll_evictsOnly code message [entry] s)
  rw [AdmissionController.requeue]
  split
  · have hcleared : Accrues s ((s.clearEntryTimer entry).detachAbort entry) :=
      .frame rfl
    exact (hcleared.trans (.admitEntry _ entry.cost .none)).trans (.frame rfl)
  split
  · exact hfail _ _
  split
  · exact .frame rfl
  · exact hfail _ _

theorem opened_new (config : ValidatedConfig ℚ) (now : ℤ) : Opened (new config now) := by
  rw [new]
  refine Accrues.opened (.armWindowTimer _) ?_ ?_ ?_ <;> rfl

/-- A tick dispatches from a state with an empty meter that was read now. -/
theorem tick_cases (h : Metered s) :
    ∃ c : AdmissionController ℚ, Accrues c s.tick ∧ c.adaptation.windowActiveCostIntegral = 0 ∧
      c.lastSampleMs = c.now ∧ c.adaptation.windowStartMs = c.now ∧ c.config = s.config := by
  have hevict := Accrues.evictsOnly (evictIdleLanes_evictsOnly s.sampleIntegral)
  have hlast : s.sampleIntegral.evictIdleLanes.lastSampleMs = s.now := by
    rw [evictIdleLanes_evictsOnly s.sampleIntegral]
    exact sample_lastSampleMs h.past
  have hnow : s.sampleIntegral.evictIdleLanes.now = s.now :=
    hevict.now.trans (Accrues.sampleIntegral s).now
  rw [tick]
  exact ⟨_, .dispatches _, rfl, hlast.trans hnow.symm, rfl,
    hevict.config.trans (Accrues.sampleIntegral s).config⟩

theorem opened_reconfigure (s : AdmissionController ℚ) (next : ValidatedConfig ℚ) :
    Opened (s.reconfigure next) := by
  have hreseat : ∀ (entries : List (QueueEntry QueuedPayload)) (t : AdmissionController ℚ),
      Accrues t (entries.foldl requeue t) := by
    intro entries
    induction entries with
    | nil => exact fun t => .refl t
    | cons entry entries ih => exact fun t => (Accrues.requeue t entry).trans (ih _)
  have hrearm : ∀ t : AdmissionController ℚ, Accrues t t.rearm := by
    intro t
    rw [rearm]
    exact (Accrues.virtualOnly (rebuildVirtualState_virtualOnly t _)).trans (.armWindowTimer _)
  have hall : Accrues (s.sampleIntegral.clearedFor next) (s.sampleIntegral.reseat next).rearm :=
    (hreseat _ _).trans (hrearm _)
  rw [reconfigure_eq]
  split
  · exact (hall.trans (.dispatch _)).opened rfl rfl rfl
  · exact hall.opened rfl rfl rfl

theorem opened_of_starts (hm : Metered s) (he : Starts e) (h : s.step e = some t) : Opened t := by
  cases e with
  | tick =>
    cases h
    obtain ⟨c, haccrues, hintegral, hlast, hstart, -⟩ := tick_cases hm
    exact haccrues.opened hintegral hlast hstart
  | windowTimer =>
    obtain rfl := step_windowTimer h
    obtain ⟨c, haccrues, hintegral, hlast, hstart, -⟩ := tick_cases hm
    exact (haccrues.trans (.armWindowTimer _)).opened hintegral hlast hstart
  | updateConfig config =>
    cases h
    obtain ⟨next, hnext⟩ := he
    rw [updateConfig, hnext]
    exact opened_reconfigure s next
  | _ => exact he.elim

/-! ## The runs -/

/-- What every run on a forward clock keeps. -/
structure Kept (s : AdmissionController ℚ) : Prop where
  reachable : s.Reachable
  metered : Metered s
  configured : ∃ input, validateConfig input = .ok s.config

theorem Kept.step (hs : Kept s) (hf : s.Forward e) (h : s.step e = some t) : Kept t := by
  have hreach : t.Reachable := hs.reachable.step h
  have hpos := hs.reachable.limit_pos
  have hcost := hs.reachable.activeCost_nonneg
  by_cases hin : Inside e
  · have haccrues := Accrues.step hs.reachable.books.sound hin h
    exact ⟨hreach, (haccrues.metered hs.metered hpos hcost).1, haccrues.config ▸ hs.configured⟩
  by_cases hstarts : Starts e
  · refine ⟨hreach, (opened_of_starts hs.metered hstarts h).metered, ?_⟩
    obtain ⟨c, haccrues, -, -, -, hconfig⟩ := tick_cases hs.metered
    have htick : s.tick.config = s.config := haccrues.config.trans hconfig
    cases e with
    | tick =>
      cases h
      exact htick ▸ hs.configured
    | windowTimer =>
      obtain rfl := step_windowTimer h
      rw [(Accrues.armWindowTimer s.tick).config, htick]
      exact hs.configured
    | updateConfig config =>
      cases h
      obtain ⟨next, hnext⟩ := hstarts
      rw [updateConfig, hnext]
      exact ⟨config, hnext.trans (congrArg _ (reconfigure_config s next).symm)⟩
    | _ => exact hstarts.elim
  cases e with
  | clock now =>
    cases h
    exact ⟨hreach, (sampled_clock hs.metered hf hpos hcost).1, hs.configured⟩
  | observePressure pressure =>
    cases h
    obtain ⟨u, haccrues, hmeter, hactive, hnow, hconfig, -⟩ := observePressure_cases s pressure
    have hintegral : u.adaptation.windowActiveCostIntegral =
        s.adaptation.windowActiveCostIntegral := congrArg fst hmeter
    have hlast : u.lastSampleMs = s.lastSampleMs := congrArg snd hmeter
    have hu : Metered u := by
      refine ⟨hintegral ▸ hs.metered.nonneg, hintegral ▸ hs.metered.safe, ?_⟩
      rw [hlast, hnow]
      exact hs.metered.past
    refine ⟨hreach, (haccrues.metered hu ?_ ?_).1, ?_⟩
    · rw [← haccrues.limit]
      exact hreach.limit_pos
    · rw [hactive]
      exact hcost
    · rw [haccrues.config, hconfig]
      exact hs.configured
  | updateConfig config =>
    cases h
    rw [updateConfig] at hreach ⊢
    cases hvalid : validateConfig config with
    | ok next => exact absurd ⟨next, hvalid⟩ hstarts
    | error message => exact hs
  | tick => exact absurd trivial hstarts
  | windowTimer => exact absurd trivial hstarts
  | _ => exact absurd trivial hin

theorem Kept.new {input : AdaptiveAdmissionConfig ℚ} {config : ValidatedConfig ℚ}
    (h : validateConfig input = .ok config) (now : ℤ) :
    Kept (new config now) := by
  refine ⟨⟨config, now, [], rfl⟩, (opened_new config now).metered, input, ?_⟩
  rw [AdmissionController.new, (Accrues.armWindowTimer _).config]
  exact h

/-! ## The average -/

/-- The utilization that the window closes with is the average of the load over the window, and up
to 24 hours the integral has not been capped. -/
structure TimeAverage (s : AdmissionController ℚ) (es : List (AdmissionEvent ℚ))
    (t u : AdmissionController ℚ) : Prop where
  average : u.adaptation.utilization = Max.max 0 (Min.min 1
    ((s.busyTime es : ℚ) / (s.adaptation.currentLimit * (t.now - s.now : ℤ))))
  uncapped : t.now - s.now ≤ maxAdmissionWindowMs → t.sampled = s.busyTime es

theorem clampedRatio_eq_one {a b : ℚ} (hb : 0 < b) (h : b ≤ a) :
    Max.max 0 (Min.min 1 (a / b)) = 1 := by
  rw [min_eq_left ((one_le_div₀ hb).2 h), max_eq_right zero_le_one]

theorem clampedRatio_eq {a b : ℚ} (ha : 0 ≤ a) (hb : 0 < b) (h : a ≤ b) :
    Max.max 0 (Min.min 1 (a / b)) = a / b := by
  rw [min_eq_right ((div_le_one₀ hb).2 h), max_eq_right (div_nonneg ha hb.le)]

/-- A load divided by too short a time is too large, unless there was none or it was full. -/
theorem ratio_eq_iff {busy limit windowMs length : ℤ} (hlimit : 0 < limit) (hwindow : 0 < windowMs)
    (hsafe : limit * windowMs ≤ maxSafeInteger) (hbusy : 0 ≤ busy) (hfull : busy ≤ limit * length) :
    Max.max 0 (Min.min 1 (((Min.min maxSafeInteger busy : ℤ) : ℚ) /
      (limit * (Max.max 1 (Min.min windowMs length) : ℤ)))) =
    Max.max 0 (Min.min 1 ((busy : ℚ) / (limit * (length : ℤ)))) ↔
      length ≤ windowMs ∨ busy = 0 ∨ busy = limit * length := by
  have hlimit' : (0 : ℚ) < limit := by exact_mod_cast hlimit
  have hwindow' : (0 : ℚ) < windowMs := by exact_mod_cast hwindow
  have hbusy' : (0 : ℚ) ≤ busy := by exact_mod_cast hbusy
  have hfull' : (busy : ℚ) ≤ limit * length := by exact_mod_cast hfull
  by_cases hzero : busy = 0
  · subst hzero
    have hsafe' : Min.min maxSafeInteger 0 = 0 := by decide
    simp [hsafe']
  have hpos : 0 < limit * length := (lt_of_le_of_ne hbusy (Ne.symm hzero)).trans_le hfull
  have hlength' : 0 < length := (pos_iff_pos_of_mul_pos hpos).1 hlimit
  by_cases htime : length ≤ windowMs
  · -- The window closes in time, so the integral is safe.
    have hshort : limit * length ≤ limit * windowMs := mul_le_mul_of_nonneg_left htime hlimit.le
    rw [min_eq_right (by omega : busy ≤ maxSafeInteger), min_eq_right htime,
      max_eq_right (by omega : 1 ≤ length)]
    exact iff_of_true rfl (Or.inl htime)
  · have helapsed : Max.max 1 (Min.min windowMs length) = windowMs := by omega
    have hlate : (windowMs : ℚ) < length := by exact_mod_cast not_le.1 htime
    have hlimitWindow : (0 : ℚ) < limit * windowMs := mul_pos hlimit' hwindow'
    have hlimitLength : (0 : ℚ) < limit * length := by exact_mod_cast hpos
    have hwide : (limit : ℚ) * windowMs ≤ limit * length :=
      mul_le_mul_of_nonneg_left hlate.le hlimit'.le
    have hsafe' : (limit : ℚ) * windowMs ≤ (maxSafeInteger : ℤ) := by exact_mod_cast hsafe
    rw [helapsed, clampedRatio_eq hbusy' hlimitLength hfull']
    by_cases hall : busy = limit * length
    · have hone : (busy : ℚ) / (limit * length) = 1 := by
        rw [hall]
        push_cast
        exact div_self hlimitLength.ne'
      have hover : (limit : ℚ) * windowMs ≤ (Min.min maxSafeInteger busy : ℤ) := by
        have hle : limit * windowMs ≤ Min.min maxSafeInteger busy := by
          refine le_min hsafe ?_
          rw [hall]
          exact mul_le_mul_of_nonneg_left (not_le.1 htime).le hlimit.le
        exact_mod_cast hle
      rw [clampedRatio_eq_one hlimitWindow hover, hone]
      exact iff_of_true rfl (Or.inr (Or.inr hall))
    · refine iff_of_false ?_ (by rintro (h | h | h) <;> contradiction)
      have hpart : (busy : ℚ) / (limit * length) < 1 := by
        rw [div_lt_one₀ hlimitLength]
        exact_mod_cast lt_of_le_of_ne hfull hall
      by_cases hover : limit * windowMs ≤ Min.min maxSafeInteger busy
      · rw [clampedRatio_eq_one hlimitWindow (by exact_mod_cast hover)]
        exact hpart.ne'
      · have hexact : Min.min maxSafeInteger busy = busy := by omega
        have hunder : (busy : ℚ) ≤ limit * windowMs := by
          exact_mod_cast (by omega : busy ≤ limit * windowMs)
        rw [hexact, clampedRatio_eq hbusy' hlimitWindow hunder]
        have hbusyPos : (0 : ℚ) < busy := by exact_mod_cast lt_of_le_of_ne hbusy (Ne.symm hzero)
        exact (div_lt_div_of_pos_left hbusyPos hlimitWindow
          (mul_lt_mul_of_pos_left hlate hlimit')).ne'

/-- The utilization that a closing event stores. -/
theorem closes_utilization {u : AdmissionController ℚ} (he : Closes e) (h : t.step e = some u)
    (hlimit : 0 < t.adaptation.currentLimit) :
    u.adaptation.utilization = Max.max 0 (Min.min 1 ((t.sampled : ℚ) /
      (t.adaptation.currentLimit *
        elapsedMs t.adaptation t.config.adaptation t.now))) := by
  have htick : t.tick.adaptation.utilization =
      (closeAdaptationWindow t.sampleIntegral.adaptation t.config.adaptation t.now).utilization := by
    obtain ⟨integral, time, hsample⟩ := t.sampleIntegral_eq
    rw [tick]
    rw [(Accrues.dispatches _).utilization, evictIdleLanes_evictsOnly t.sampleIntegral, hsample]
  have hu : u.adaptation.utilization = t.tick.adaptation.utilization := by
    cases e with
    | tick => exact Option.some.inj h ▸ rfl
    | windowTimer =>
      obtain rfl := step_windowTimer h
      exact (Accrues.armWindowTimer _).utilization
    | _ => exact he.elim
  have hsample := Accrues.sampleIntegral t
  rw [hu, htick, closeAdaptationWindow_clamped _ _ (hsample.limit ▸ hlimit), hsample.limit,
    elapsedMs, elapsedMs, hsample.windowStart]
  rfl

/-- From a new controller with a validated configuration, on a clock that does not go back: a
window of constant limit closes with the time average of its load, unless it closes late and was
neither empty nor full all the time. -/
theorem timeAverage_iff {input : AdaptiveAdmissionConfig ℚ} {config : ValidatedConfig ℚ}
    (hconfig : validateConfig input = .ok config) {now : ℤ} {pre es : List (AdmissionEvent ℚ)}
    {last : AdmissionEvent ℚ} {s t u : AdmissionController ℚ}
    (hstart : pre = [] ∨ ∃ before e, pre = before ++ [e] ∧ Starts e)
    (hforward : Trace.Meets step Forward (new config now) (pre ++ es))
    (hpre : exec step (new config now) pre = some s)
    (hes : ∀ e ∈ es, InWindow e) (hrun : exec step s es = some t)
    (hlimit : Trace.Throughout step
      (fun r => r.adaptation.currentLimit = s.adaptation.currentLimit) s es)
    (hlast : Closes last) (hclose : t.step last = some u) :
    TimeAverage s es t u ↔ t.now - s.now ≤ s.config.windowMs ∨ s.busyTime es = 0 ∨
      s.busyTime es = s.adaptation.currentLimit * (t.now - s.now) := by
  have hkeep : ∀ {fs : List (AdmissionEvent ℚ)} {r : AdmissionController ℚ},
      Trace.Meets step Forward (new config now) fs →
      exec step (new config now) fs = some r → Kept r := fun hf hr =>
    exec_invariant_of_meets (fun _ _ _ hr hf h => hr.step hf h) (Kept.new hconfig now) hf hr
  have hopened : Opened s := by
    rcases hstart with rfl | ⟨before, e, rfl, he⟩
    · cases hpre
      exact opened_new config now
    · obtain ⟨r, hbefore, hstep⟩ := exec_append.1 hpre
      obtain ⟨s', hs', heq⟩ := exec_cons.1 hstep
      cases heq
      rw [append_assoc] at hforward
      exact opened_of_starts (hkeep (hforward.append hbefore).1 hbefore).metered he hs'
  have hs : Kept s := hkeep (hforward.append hpre).1 hpre
  obtain ⟨input', hinput'⟩ := hs.configured
  obtain ⟨hwindow, hparams⟩ := validateConfig_checked hinput'
  have hran := inWindow_ran hs.reachable hopened.metered hes (hforward.append hpre).2 hlimit hrun
  have hpos := hs.reachable.limit_pos
  have hmost : s.adaptation.currentLimit ≤ maxAdmissionCostOrLimit :=
    hs.reachable.ledger.le_maxLimit.trans s.config.maxLimit_le
  have hday : maxAdmissionCostOrLimit * maxAdmissionWindowMs ≤ maxSafeInteger := by decide
  have hsampled := hran.sampled
  rw [hopened.sampled, zero_add] at hsampled
  have hsafe : ∀ n : ℤ, 0 ≤ n → n ≤ maxAdmissionWindowMs →
      s.adaptation.currentLimit * n ≤ maxSafeInteger := fun n h0 h =>
    (mul_le_mul hmost h h0 (by decide)).trans hday
  have hlength : 0 ≤ t.now - s.now := sub_nonneg.2 hran.forward
  have huncapped : t.now - s.now ≤ maxAdmissionWindowMs → t.sampled = s.busyTime es := by
    intro hle
    have hfits := hran.busy_le.trans (hsafe _ hlength hle)
    omega
  have hratio := ratio_eq_iff hpos hwindow.1 (hsafe _ hwindow.1.le hwindow.2)
    hran.busy_nonneg hran.busy_le
  have hutil := closes_utilization hlast hclose (hran.limit ▸ hpos)
  rw [elapsedMs, hran.windowStart, hopened.start, hran.config, hparams.windowMs_eq, hran.limit,
    hsampled] at hutil
  rw [← hratio, ← hutil]
  exact ⟨fun h => h.average, fun h => ⟨h, huncapped⟩⟩

/-! ## A late window -/

/-- One unit of cost, admitted at once and held until the window closes. -/
def holdOne (closing : ℤ) : List (AdmissionEvent ℚ) := [.acquire { cost := some 1 }, .clock closing]

theorem holdOne_inWindow (closing : ℤ) : ∀ e ∈ holdOne closing, InWindow e := by
  intro e he
  simp only [holdOne, mem_cons, not_mem_nil, or_false] at he
  rcases he with rfl | rfl
  · trivial
  · trivial

/-- The state in which the window closes. -/
def held (closing : ℤ) : AdmissionController ℚ :=
  { (new stepTwoConfig 0).call { cost := some 1 } with now := closing }

theorem holdOne_run (closing : ℤ) :
    exec step (new stepTwoConfig 0) (holdOne closing) =
      some (held closing) :=
  rfl

theorem holdOne_forward {closing : ℤ} (h : 0 ≤ closing) :
    Trace.Meets step Forward (new stepTwoConfig 0) ([] ++ holdOne closing) := by
  intro r hr
  refine ⟨trivial, fun r' _ => ⟨?_, trivial⟩⟩
  cases hr
  exact h

theorem holdOne_limit (closing : ℤ) : Trace.Throughout step
    (fun r => r.adaptation.currentLimit =
      (new stepTwoConfig 0).adaptation.currentLimit)
    (new stepTwoConfig 0) (holdOne closing) := by
  have hcall := (Accrues.call (new stepTwoConfig 0) { cost := some 1 }).limit
  refine ⟨rfl, fun r hr => ?_⟩
  cases hr
  refine ⟨hcall, fun r' hr' => ?_⟩
  cases hr'
  exact hcall

/-- A window of 1000 that closes after 2000 stores twice the average. -/
theorem lateWindow_doubled : ¬ ∀ (input : AdaptiveAdmissionConfig ℚ) (config : ValidatedConfig ℚ)
    (now : ℤ) (pre es : List (AdmissionEvent ℚ)) (last : AdmissionEvent ℚ)
    (s t u : AdmissionController ℚ), validateConfig input = .ok config →
    (pre = [] ∨ ∃ before e, pre = before ++ [e] ∧ Starts e) →
    Trace.Meets step Forward (new config now) (pre ++ es) →
    exec step (new config now) pre = some s →
    (∀ e ∈ es, InWindow e) → exec step s es = some t →
    Trace.Throughout step (fun r => r.adaptation.currentLimit = s.adaptation.currentLimit) s es →
    Closes last → t.step last = some u → TimeAverage s es t u := by
  intro h
  have haverage := (h _ _ 0 [] (holdOne 2000) .tick _ _ _ validateConfig_stepTwo (Or.inl rfl)
    (holdOne_forward (by decide)) rfl (holdOne_inWindow 2000) (holdOne_run 2000)
    (holdOne_limit 2000) trivial rfl).average
  exact absurd haverage (by decide +kernel)

/-- A window that closes in time stores the average. -/
theorem timeAverage_holdOne : TimeAverage (new stepTwoConfig 0) (holdOne 1000)
    (held 1000) (held 1000).tick :=
  (timeAverage_iff validateConfig_stepTwo (Or.inl rfl) (holdOne_forward (by decide)) rfl
    (holdOne_inWindow 1000) (holdOne_run 1000) (holdOne_limit 1000)
    (show Closes AdmissionEvent.tick from trivial) rfl).2 (Or.inl (by decide))

end AdmissionController

end OmniRoute
