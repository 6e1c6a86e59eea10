import OmniRoute.TokenRefresh.LaneSpacing

/-!
# Progress in a refresh lane

Whatever a refresh ends with, its call releases the lane, so every call gets its turn once the
refreshes before it have ended (`Kept.unblocked`). Behind it stands a walk of one call from the
`await` to its fulfilled tail (`tail_of_waiting`), one phase after the other.

**Main result (`refresh_lanes`).** The executions of a group are one at a time, in the order of the
calls, and every call gets its turn whatever the ones before it end with; and the configured spacing
is kept in every run exactly when it is one that a timer keeps.
-/

namespace OmniRoute.RefreshLanes

open Option Trace

variable {env : Env} {s t : State} {e : Event} {i j : ℕ} {c c' : RefreshCall} {g : LaneKey}
  {outcome : ℕ → Outcome}

/-! ## Runs without another call -/

theorem Reaches.refl (s : State) : Reaches env outcome s s := ⟨[], nofun, rfl⟩

theorem Reaches.trans {r : State} (h : Reaches env outcome s t) (h' : Reaches env outcome t r) :
    Reaches env outcome s r := by
  obtain ⟨es, hallowed, hrun⟩ := h
  obtain ⟨es', hallowed', hrun'⟩ := h'
  refine ⟨es ++ es', fun e he => ?_, exec_append.2 ⟨t, hrun, hrun'⟩⟩
  rcases List.mem_append.1 he with he | he
  · exact hallowed e he
  · exact hallowed' e he

theorem Reaches.step {r : State} (hstep : RefreshLanes.step env s e = some t)
    (he : Allowed outcome e) (h : Reaches env outcome t r) :
    Reaches env outcome s r := by
  refine Reaches.trans ⟨[e], fun e' he' => ?_, exec_cons.2 ⟨t, hstep, rfl⟩⟩ h
  rw [List.mem_singleton.1 he']
  exact he

/-- The call `j` is still the same call, and what was fulfilled is fulfilled. -/
theorem step_keeps (hstep : step env s e = some t) {p : Option ℕ} (hprev : s.tailFulfilled p)
    (hc : s.calls[j]? = some c) : t.tailFulfilled p ∧
      ∃ c', t.calls[j]? = some c' ∧ c'.group = c.group ∧ c'.prevTail = c.prevTail := by
  rcases step_cases hstep with ⟨provider, rfl⟩ | ⟨time, -, rfl⟩ |
    ⟨i, c₁, c', hc₁, hturn, hcalls, -, -⟩
  · obtain ⟨new, hcalls, -⟩ := serializeRefresh_spec s provider
    exact ⟨tailFulfilled_called hcalls hprev, c, (get_called hcalls).2 (.inl hc), rfl, rfl⟩
  · exact ⟨hprev, c, hc, rfl, rfl⟩
  · refine ⟨tailFulfilled_turned hc₁ hturn hcalls hprev, ?_⟩
    rw [get_turned hc₁ hcalls]
    by_cases hij : i = j
    · subst hij
      obtain rfl := Option.some.inj (hc.symm.trans hc₁)
      exact ⟨c', if_pos rfl, hturn.group, hturn.prevTail⟩
    · exact ⟨c, (if_neg hij).trans hc, rfl, rfl⟩

theorem exec_keeps {es : List Event} (hrun : exec (step env) s es = some t)
    (hc : s.calls[j]? = some c) :
    ∃ c', t.calls[j]? = some c' ∧ c'.group = c.group ∧ c'.prevTail = c.prevTail := by
  have hkeeps : ∀ (s₁ : State) e s₂,
      (∃ c', s₁.calls[j]? = some c' ∧ c'.group = c.group ∧ c'.prevTail = c.prevTail) →
      step env s₁ e = some s₂ →
      ∃ c', s₂.calls[j]? = some c' ∧ c'.group = c.group ∧ c'.prevTail = c.prevTail := by
    rintro s₁ e s₂ ⟨c₁, hc₁, hgroup, hprev⟩ hstep
    obtain ⟨-, c₂, hc₂, hgroup₂, hprev₂⟩ := step_keeps hstep (p := none) trivial hc₁
    exact ⟨c₂, hc₂, hgroup₂.trans hgroup, hprev₂.trans hprev⟩
  exact exec_invariant hkeeps ⟨c, hc, rfl, rfl⟩ hrun

/-! ## The walk of one call -/

section

variable (hc : s.calls[j]? = some c)
include hc

theorem get_put (c' : RefreshCall) : (s.put j c').calls[j]? = some c' := by
  obtain ⟨hlt, -⟩ := List.getElem?_eq_some_iff.1 hc
  exact List.getElem?_set_self hlt

section

variable (hprev : s.tailFulfilled c.prevTail)
include hprev

theorem tail_of_released
    (hphase : c.phase = .released) : ∃ t, Reaches env outcome s t ∧ t.tailFulfilled (some j) := by
  have hstep : step env s (.tail j) = some (s.put j { c with tail := true }) := by
    simp only [step, hc, bind_some, turn]
    rw [if_pos ⟨hphase, hprev⟩]
  exact ⟨_, .step hstep trivial (.refl _), _, get_put hc _, rfl⟩

theorem tail_of_delaying {due : ℚ} (hphase : c.phase = .delaying due) (hgroup : c.group = some g) :
    ∃ t, Reaches env outcome s t ∧ t.tailFulfilled (some j) := by
  have hpass : step env s (.pass (max 0 (due - s.now))) =
      some { s with now := s.now + max 0 (due - s.now) } := by
    simp only [step]
    rw [if_pos (le_max_left _ _)]
  have hdue : due ≤ s.now + max 0 (due - s.now) := by
    have hle := le_max_right 0 (due - s.now)
    linarith
  have htimer : step env { s with now := s.now + max 0 (due - s.now) } (.timer j) =
      some (State.release { s with now := s.now + max 0 (due - s.now) } j c g) := by
    simp only [step, hc, bind_some, turn, hphase, hgroup]
    rw [if_pos hdue]
  obtain ⟨hprev', -⟩ := step_keeps htimer (p := c.prevTail) hprev (j := j) hc
  have hc' : (State.release { s with now := s.now + max 0 (due - s.now) } j c g).calls[j]? =
      some { c with phase := .released } := get_put hc _
  obtain ⟨t, hreach, htail⟩ := tail_of_released hc' hprev' rfl
  exact ⟨t, .step hpass trivial (.step htimer trivial hreach), htail⟩

theorem tail_of_settled (hphase : c.phase = .settled) (hgroup : c.group = some g) :
    ∃ t, Reaches env outcome s t ∧ t.tailFulfilled (some j) := by
  have hfinish : step env s (.finish j) = some (finishCall env s j c g) := by
    simp only [step, hc, bind_some, turn, hphase, hgroup]
  obtain ⟨hprev', -⟩ := step_keeps hfinish hprev hc
  suffices h : ∃ t, Reaches env outcome (finishCall env s j c g) t ∧ t.tailFulfilled (some j) by
    obtain ⟨t, hreach, htail⟩ := h
    exact ⟨t, .step hfinish trivial hreach, htail⟩
  unfold finishCall at hprev' ⊢
  dsimp only at hprev' ⊢
  split at hprev'
  · next hgap =>
    rw [if_pos hgap]
    exact tail_of_delaying (g := g) (get_put hc _) hprev' rfl hgroup
  · next hgap =>
    rw [if_neg hgap]
    exact tail_of_released (c := { c with phase := .released }) (get_put hc _) hprev' rfl

theorem tail_of_running (hphase : c.phase = .running) (hgroup : c.group = some g) :
    ∃ t, Reaches env outcome s t ∧ t.tailFulfilled (some j) := by
  have hsettle : step env s (.settle j (outcome j)) = some (s.put j { c with
      phase := .settled, settled := some ⟨s.now, outcome j, s.calls.length⟩ }) := by
    simp only [step, hc, bind_some, turn, hgroup]
    rw [if_pos hphase]
  obtain ⟨hprev', -⟩ := step_keeps hsettle hprev hc
  obtain ⟨t, hreach, htail⟩ := tail_of_settled (g := g)
    (get_put hc _) hprev' rfl hgroup
  exact ⟨t, .step hsettle rfl hreach, htail⟩

theorem start_of_waiting
    (hphase : c.phase = .waiting) : step env s (.start j) =
      some (s.put j { c with phase := .running, startedAt := some s.now }) := by
  simp only [step, hc, bind_some, turn]
  rw [if_pos ⟨hphase, hprev⟩]

theorem tail_of_waiting (hphase : c.phase = .waiting) (hgroup : c.group = some g) :
    ∃ t, Reaches env outcome s t ∧ t.tailFulfilled (some j) := by
  have hstart := @start_of_waiting env _ _ _ hc hprev hphase
  obtain ⟨hprev', -⟩ := step_keeps hstart hprev hc
  obtain ⟨t, hreach, htail⟩ := tail_of_running (g := g)
    (get_put hc _) hprev' rfl hgroup
  exact ⟨t, .step hstart trivial hreach, htail⟩

/-- Behind a fulfilled tail the call gets to fulfil its own, from whatever phase it is in. -/
theorem tail_of_prev
    (hgroup : c.group = some g) : ∃ t, Reaches env outcome s t ∧ t.tailFulfilled (some j) := by
  cases hphase : c.phase with
  | waiting => exact tail_of_waiting hc hprev hphase hgroup
  | running => exact tail_of_running hc hprev hphase hgroup
  | settled => exact tail_of_settled hc hprev hphase hgroup
  | delaying due => exact tail_of_delaying hc hprev hphase hgroup
  | released => exact tail_of_released hc hprev hphase

end

end

/-! ## The whole lane -/

/-- The calls of a lane fulfil their tails one after the other. -/
theorem Kept.reaches_tail (h : Kept env s) (outcome : ℕ → Outcome) (hc : s.calls[j]? = some c)
    (hgroup : c.group = some g) : ∃ t, Reaches env outcome s t ∧ t.tailFulfilled (some j) := by
  induction j using Nat.strong_induction_on generalizing c with
  | _ j ih =>
    have hbehind := h.lane.behind j c g hc hgroup
    cases hp : c.prevTail with
    | none => exact tail_of_prev hc (hp ▸ trivial) hgroup
    | some p =>
      rw [hp] at hbehind
      obtain ⟨hlt, ⟨b, hb, hbgroup⟩, -⟩ := hbehind
      obtain ⟨t, hreach, htail⟩ := ih p hlt hb hbgroup
      obtain ⟨es, -, hrun⟩ := id hreach
      obtain ⟨c', hc', hgroup', hprev'⟩ := exec_keeps hrun hc
      obtain ⟨r, hreach', htail'⟩ := tail_of_prev hc'
        (hprev'.trans hp ▸ htail) (hgroup'.trans hgroup)
      exact ⟨r, hreach.trans hreach', htail'⟩

/-- Behind a fulfilled tail the call has started or can start. -/
theorem Kept.start_of_prev (h : Kept env s) (hc : s.calls[j]? = some c)
    (hprev : s.tailFulfilled c.prevTail) : ∃ t, Reaches env outcome s t ∧ Started t j := by
  have htimed := h.timed j c hc
  unfold CallTimed at htimed
  split at htimed
  · next hphase =>
    exact ⟨_, .step (start_of_waiting hc hprev hphase) trivial (.refl _), _, s.now, get_put hc _,
      rfl⟩
  · obtain ⟨⟨u, hu, -⟩, -⟩ := htimed
    exact ⟨s, .refl s, c, u, hc, hu⟩
  · obtain ⟨-, u, x, hx⟩ := htimed
    exact ⟨s, .refl s, c, u, hc, hx.startedAt⟩
  · obtain ⟨-, u, x, hx, -⟩ := htimed
    exact ⟨s, .refl s, c, u, hc, hx.startedAt⟩
  · obtain ⟨u, x, hx, -⟩ := htimed
    exact ⟨s, .refl s, c, u, hc, hx.startedAt⟩

theorem Kept.unblocked (h : Kept env s) : Unblocked env s := by
  intro outcome j hj
  obtain ⟨c, hc⟩ : ∃ c, s.calls[j]? = some c := ⟨_, List.getElem?_eq_getElem hj⟩
  by_cases hwaiting : c.phase = .waiting
  · have htimed := h.timed j c hc
    unfold CallTimed at htimed
    rw [hwaiting] at htimed
    obtain ⟨g, hgroup⟩ := ne_none_iff_exists'.1 htimed.1
    have hbehind := h.lane.behind j c g hc hgroup
    cases hp : c.prevTail with
    | none => exact h.start_of_prev hc (hp ▸ trivial)
    | some p =>
      rw [hp] at hbehind
      obtain ⟨-, ⟨b, hb, hbgroup⟩, -⟩ := hbehind
      obtain ⟨t, hreach, htail⟩ := h.reaches_tail outcome hb hbgroup
      obtain ⟨es, -, hrun⟩ := id hreach
      obtain ⟨c', hc', -, hprev'⟩ := exec_keeps hrun hc
      obtain ⟨r, hreach', hstarted⟩ := (h.exec hrun).start_of_prev hc'
        (hprev'.trans hp ▸ htail)
      exact ⟨r, hreach.trans hreach', hstarted⟩
  · exact h.start_of_prev hc (h.lane.began j c hc hwaiting)

/-! ## The configured spacing -/

/-- A call that is queued when the one before it settles, and starts right after the gap. -/
def queuedRun (gap : ℚ) : List Event :=
  [.call "codex", .call "openai", .start 0, .settle 0 .resolved, .finish 0, .pass gap, .timer 0,
    .tail 0, .start 1]

/-- What the calls of that run are at its end. -/
def queuedCalls (gap : ℚ) : List RefreshCall :=
  [⟨"codex", none, .released, true, some 0, some ⟨0, .resolved, 2⟩⟩,
    ⟨"openai", some 0, .running, false, some gap, none⟩]

theorem pair_queuedCalls {gap : ℚ} (hcalls : s.calls = queuedCalls gap) :
    Pair s 0 1 ⟨"codex", none, .released, true, some 0, some ⟨0, .resolved, 2⟩⟩
      ⟨"openai", some 0, .running, false, some gap, none⟩ gap where
  lt := Nat.one_pos
  first := by
    rw [hcalls]
    rfl
  second := by
    rw [hcalls]
    rfl
  rotating := by decide
  group := (by decide : rotationGroupFor "openai" = rotationGroupFor "codex")
  startedAt := rfl

theorem one_le_timerDelay (ms : ℚ) : 1 ≤ timerDelay ms := by
  unfold timerDelay
  split
  · next hrange =>
    have hfloor : (1 : ℤ) ≤ ⌊ms⌋ := Int.le_floor.2 (by simpa using hrange.1)
    exact_mod_cast hfloor
  · exact le_rfl

theorem exec_queuedRun (hpos : 0 < getRefreshSpacingMs env) :
    ∃ s, exec (step env) start (queuedRun (timerDelay (getRefreshSpacingMs env))) = some s ∧
      s.calls = queuedCalls (timerDelay (getRefreshSpacingMs env)) := by
  have hnonneg : 0 ≤ timerDelay (getRefreshSpacingMs env) :=
    zero_le_one.trans (one_le_timerDelay _)
  have hcodex : rotationGroupFor "codex" = some (.group "openai-auth0") := by decide
  have hopenai : rotationGroupFor "openai" = some (.group "openai-auth0") := by decide
  simp [queuedRun, queuedCalls, exec, step, start, serializeRefresh, hcodex, hopenai, turn,
    finishCall, State.put, State.release, RefreshCall.group, State.tailFulfilled, OrdMap.get_set,
    hpos, hnonneg]

theorem refresh_lanes (env : Env) :
    (∀ es s, exec (step env) start es = some s → Serialized s ∧ Unblocked env s) ∧
    ((∀ es s, exec (step env) start es = some s → Spaced (getRefreshSpacingMs env) s) ↔
      KeepsSpacing env) := by
  refine ⟨fun es s hrun => ?_, fun h => ?_, fun hkeeps es s hrun => ?_⟩
  · have hkept := Kept.start.exec hrun
    exact ⟨hkept.serialized, hkept.unblocked⟩
  · rw [← le_settleGap_iff]
    unfold settleGap
    split
    · next hpos =>
      obtain ⟨s, hrun, hcalls⟩ := exec_queuedRun hpos
      have hfar := h _ s hrun 0 1 _ _ _ _ (pair_queuedCalls hcalls) rfl Nat.one_lt_two
      simpa using hfar
    · next hzero => exact not_lt.1 hzero
  · exact (Kept.start.exec hrun).spaced ((le_settleGap_iff env).2 hkeeps)

/-- No spacing is configured. -/
def defaultEnv : Env := ⟨none, fun _ => none⟩

/-- In the run with a queued call the default spacing is kept. -/
theorem refresh_lanes_default :
    ∃ s, exec (step defaultEnv) start (queuedRun (timerDelay 2000)) = some s ∧
      Spaced 2000 s := by
  have hkeeps : KeepsSpacing defaultEnv := .inr (by decide +kernel)
  obtain ⟨s, hrun, -⟩ := @exec_queuedRun defaultEnv (by decide +kernel)
  exact ⟨s, hrun, (refresh_lanes defaultEnv).2.2 hkeeps _ s hrun⟩

/-- `CODEX_REFRESH_SPACING_MS=3000000000` -/
def longEnv : Env where
  rawEnv := some "3000000000"
  number raw := if raw = "3000000000" then some 3000000000 else none

/-- The timer of a longer spacing fires after one millisecond. -/
theorem longSpacing_lost :
    getRefreshSpacingMs longEnv = 3000000000 ∧
    ∃ s, exec (step longEnv) start (queuedRun 1) = some s ∧
      ¬ Spaced (getRefreshSpacingMs longEnv) s := by
  have hspacing : getRefreshSpacingMs longEnv = 3000000000 := by decide +kernel
  have hdelay : timerDelay 3000000000 = 1 := by
    unfold timerDelay
    norm_num
  obtain ⟨s, hrun, hcalls⟩ := @exec_queuedRun longEnv (by rw [hspacing]; norm_num)
  rw [hspacing, hdelay] at hrun hcalls
  refine ⟨hspacing, s, hrun, fun hspaced => ?_⟩
  have hfar := hspaced 0 1 _ _ _ _ (pair_queuedCalls hcalls) rfl Nat.one_lt_two
  rw [hspacing] at hfar
  norm_num at hfar

end OmniRoute.RefreshLanes
