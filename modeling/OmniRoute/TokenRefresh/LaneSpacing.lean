import OmniRoute.TokenRefresh.Lanes

/-!
# Order and spacing in a refresh lane

What the times of the calls say (`CallTimed`) and how far two calls of a group are apart (`Apart`).
The settle gap is a timer, and a timer does not keep every delay that the environment can configure:
one of more than 2147483647 ms fires after 1 ms, and of another the fraction is dropped.

**Main results (`Kept.serialized`, `Kept.spaced`).** The executions of a group are one at a time, in
the order of the calls, and the gap that the timer leaves is between a call and those that were
there when it settled.
-/

namespace OmniRoute.RefreshLanes

open Option

variable {env : Env} {s t : State} {e : Event} {i j : ℕ} {c c' : RefreshCall} {g : LaneKey}

def Running (s : State) (i : ℕ) (g : LaneKey) : Prop :=
  ∃ c, s.calls[i]? = some c ∧ c.group = some g ∧ c.phase = .running

/-- Two calls of a group, the second of which has started. -/
structure Pair (s : State) (i j : ℕ) (c c' : RefreshCall) (u : ℚ) : Prop where
  lt : i < j
  first : s.calls[i]? = some c
  second : s.calls[j]? = some c'
  rotating : c.group ≠ none
  group : c'.group = c.group
  startedAt : c'.startedAt = some u

/-- One execution at a time, in the order of the calls. -/
structure Serialized (s : State) : Prop where
  exclusive : ∀ i j g, Running s i g → Running s j g → i = j
  ordered : ∀ i j c c' u, Pair s i j c c' u →
    ∃ v x, c.startedAt = some v ∧ c.settled = some x ∧ v ≤ x.time ∧ x.time ≤ u

/-- A call that was there when an earlier one of its group settled starts `gap` later. -/
def Spaced (gap : ℚ) (s : State) : Prop :=
  ∀ i j c c' u x, Pair s i j c c' u → c.settled = some x → j < x.calls → x.time + gap ≤ u

/-- The events that the lanes bring about themselves, and ends of the refreshes as given. -/
def Allowed (outcome : ℕ → Outcome) : Event → Prop
  | .call _ => False
  | .settle i o => o = outcome i
  | _ => True

def Reaches (env : Env) (outcome : ℕ → Outcome) (s t : State) : Prop :=
  ∃ es, (∀ e ∈ es, Allowed outcome e) ∧ Trace.exec (step env) s es = some t

def Started (s : State) (j : ℕ) : Prop := ∃ c u, s.calls[j]? = some c ∧ c.startedAt = some u

/-- Whatever the refreshes end with, every call can get its turn without another call. -/
def Unblocked (env : Env) (s : State) : Prop :=
  ∀ outcome j, j < s.calls.length → ∃ t, Reaches env outcome s t ∧ Started t j

/-- The configured spacing is one that a timer keeps. -/
def KeepsSpacing (env : Env) : Prop :=
  getRefreshSpacingMs env ≤ 1 ∨
    ((getRefreshSpacingMs env).den = 1 ∧ getRefreshSpacingMs env ≤ 2147483647)

/-- The gap that the lane really leaves. -/
def settleGap (env : Env) : ℚ :=
  if 0 < getRefreshSpacingMs env then timerDelay (getRefreshSpacingMs env) else 0

/-! ## The configured spacing -/

theorem getRefreshSpacingMs_nonneg (env : Env) : 0 ≤ getRefreshSpacingMs env := by
  unfold getRefreshSpacingMs defaultRefreshSpacingMs
  split
  · norm_num
  · split
    · norm_num
    · split
      · split
        · next hraw => exact hraw
        · norm_num
      · norm_num

theorem le_settleGap_iff (env : Env) :
    getRefreshSpacingMs env ≤ settleGap env ↔ KeepsSpacing env := by
  have hnonneg := getRefreshSpacingMs_nonneg env
  unfold settleGap KeepsSpacing timerDelay
  generalize getRefreshSpacingMs env = ms at hnonneg
  by_cases hpos : 0 < ms
  · rw [if_pos hpos]
    by_cases hrange : 1 ≤ ms ∧ ms ≤ 2147483647
    · rw [if_pos hrange]
      constructor
      · intro hle
        have heq : ms = (⌊ms⌋ : ℚ) := hle.antisymm (Int.floor_le ms)
        refine .inr ⟨?_, hrange.2⟩
        rw [heq]
        exact Rat.den_intCast _
      · rintro (hone | ⟨hden, -⟩)
        · rw [hone.antisymm hrange.1, Int.floor_one, Int.cast_one]
        · rw [← Rat.den_eq_one_iff ms |>.1 hden, Int.floor_intCast]
    · rw [if_neg hrange]
      constructor
      · exact .inl
      · rintro (hone | ⟨-, hmax⟩)
        · exact hone
        · exact le_of_not_ge fun hge => hrange ⟨hge, hmax⟩
  · rw [if_neg hpos]
    have hzero : ms = 0 := (not_lt.1 hpos).antisymm hnonneg
    rw [hzero]
    simp

/-! ## The times of a call -/

/-- An execution that began at `u` and ended as `x` says. -/
structure Ended (s : State) (c : RefreshCall) (u : ℚ) (x : Settlement) : Prop where
  startedAt : c.startedAt = some u
  settled : c.settled = some x
  order : u ≤ x.time
  past : x.time ≤ s.now
  calls : x.calls ≤ s.calls.length

/-- A later call of the group was there when the call settled. -/
def Queued (s : State) (i : ℕ) (c : RefreshCall) (x : Settlement) : Prop :=
  ∃ j g, i < j ∧ j < x.calls ∧ c.group = some g ∧ InGroup s j g

def CallTimed (env : Env) (s : State) (i : ℕ) (c : RefreshCall) : Prop :=
  match c.phase with
  | .waiting => c.group ≠ none ∧ c.startedAt = none ∧ c.settled = none
  | .running => (∃ u, c.startedAt = some u ∧ u ≤ s.now) ∧ c.settled = none
  | .settled => c.group ≠ none ∧ ∃ u x, Ended s c u x
  | .delaying due =>
    c.group ≠ none ∧ ∃ u x, Ended s c u x ∧ x.time + timerDelay (getRefreshSpacingMs env) ≤ due
  | .released => ∃ u x, Ended s c u x ∧ (Queued s i c x → x.time + settleGap env ≤ s.now)

def Timed (env : Env) (s : State) : Prop :=
  ∀ (i : ℕ) (c : RefreshCall), s.calls[i]? = some c → CallTimed env s i c

/-- Of two calls of a group the second starts after the first has ended, and after the gap when it
was there at the end. -/
def Apart (env : Env) (s : State) : Prop :=
  ∀ i j c c' u, Pair s i j c c' u →
    ∃ v x, Ended s c v x ∧ x.time ≤ u ∧ (j < x.calls → x.time + settleGap env ≤ u)

/-- Time passing and new calls change nothing of a call. -/
theorem CallTimed.mono (h : CallTimed env s i c) (hnow : s.now ≤ t.now)
    (hlength : s.calls.length ≤ t.calls.length)
    (hin : ∀ j < s.calls.length, ∀ g, InGroup t j g → InGroup s j g) : CallTimed env t i c := by
  have hended : ∀ {u x}, Ended s c u x → Ended t c u x := fun hx =>
    ⟨hx.startedAt, hx.settled, hx.order, hx.past.trans hnow, hx.calls.trans hlength⟩
  unfold CallTimed at h ⊢
  split at h
  · exact h
  · obtain ⟨⟨u, hu, hpast⟩, hnone⟩ := h
    exact ⟨⟨u, hu, hpast.trans hnow⟩, hnone⟩
  · obtain ⟨hgroup, u, x, hx⟩ := h
    exact ⟨hgroup, u, x, hended hx⟩
  · obtain ⟨hgroup, u, x, hx, hdue⟩ := h
    exact ⟨hgroup, u, x, hended hx, hdue⟩
  · obtain ⟨u, x, hx, hgap⟩ := h
    refine ⟨u, x, hended hx, fun ⟨j, g, hij, hj, hgroup, hj'⟩ => ?_⟩
    exact (hgap ⟨j, g, hij, hj, hgroup, hin j (hj.trans_le hx.calls) g hj'⟩).trans hnow

/-- What a turn does to the times of the call itself. -/
theorem CallTimed.turned (h : CallTimed env s i c) (hlane : Lane s) (hturn : Turn env s i c c') :
    CallTimed env s i c' := by
  cases hturn with
  | start hphase =>
    unfold CallTimed at h
    rw [hphase] at h
    exact ⟨⟨s.now, rfl, le_rfl⟩, h.2.2⟩
  | free outcome hphase hgroup =>
    unfold CallTimed at h
    rw [hphase] at h
    obtain ⟨⟨u, hu, hpast⟩, -⟩ := h
    refine ⟨u, _, ⟨hu, rfl, hpast, le_rfl, le_rfl⟩, fun ⟨_, g, _, _, hg, _⟩ => ?_⟩
    exact absurd (hgroup.symm.trans hg) nofun
  | settle outcome g hphase hgroup =>
    unfold CallTimed at h
    rw [hphase] at h
    obtain ⟨⟨u, hu, hpast⟩, -⟩ := h
    refine ⟨?_, u, _, hu, rfl, hpast, le_rfl, le_rfl⟩
    intro hnone
    exact absurd (hgroup.symm.trans hnone) nofun
  | delay hphase hspacing =>
    unfold CallTimed at h
    rw [hphase] at h
    obtain ⟨hgroup, u, x, hx⟩ := h
    refine ⟨hgroup, u, x, ⟨hx.startedAt, hx.settled, hx.order, hx.past, hx.calls⟩, ?_⟩
    have hpast := hx.past
    linarith
  | release g hphase hgroup hlast =>
    unfold CallTimed at h
    rw [hphase] at h
    obtain ⟨-, u, x, hx⟩ := h
    refine ⟨u, x, ⟨hx.startedAt, hx.settled, hx.order, hx.past, hx.calls⟩, ?_⟩
    rintro ⟨j, g', hij, hj, hgroup', hin⟩
    rcases hlast with hlast | hzero
    · -- the tail of the call is still the last, so there is no later call
      obtain rfl := some.inj (hgroup.symm.trans hgroup')
      have hbehind := hlane.last g
      rw [hlast] at hbehind
      exact absurd hin (hbehind.2.2 j hij (hj.trans_le hx.calls))
    · unfold settleGap
      rw [if_neg (not_lt.2 hzero), add_zero]
      exact hx.past
  | timer due hphase hdue =>
    unfold CallTimed at h
    rw [hphase] at h
    obtain ⟨-, u, x, hx, hgap⟩ := h
    refine ⟨u, x, ⟨hx.startedAt, hx.settled, hx.order, hx.past, hx.calls⟩, fun _ => ?_⟩
    unfold settleGap
    split
    · exact hgap.trans hdue
    · rw [add_zero]
      exact hx.past
  | tail hphase hprev =>
    unfold CallTimed at h ⊢
    rw [hphase] at h
    rw [hphase]
    obtain ⟨u, x, hx, hgap⟩ := h
    exact ⟨u, x, ⟨hx.startedAt, hx.settled, hx.order, hx.past, hx.calls⟩, hgap⟩

theorem Timed.step (h : Timed env s) (hlane : Lane s) (hstep : RefreshLanes.step env s e = some t) :
    Timed env t := by
  intro k c₁ hk
  rcases step_cases hstep with ⟨provider, rfl⟩ | ⟨time, htime, rfl⟩ |
    ⟨i, c, c', hc, hturn, hcalls, hnow, -⟩
  · obtain ⟨c, hcalls, hnow, -, -, hsettled, hphase, -, -⟩ := serializeRefresh_spec s provider
    rcases (get_called hcalls).1 hk with hk | ⟨rfl, rfl⟩
    · refine (h k c₁ hk).mono hnow.ge ?_ fun j hj g hin => ?_
      · rw [hcalls, List.length_append]
        exact Nat.le_add_right _ _
      · rcases (inGroup_called hcalls).1 hin with hin | ⟨rfl, -⟩
        · exact hin
        · exact absurd hj (lt_irrefl _)
    · unfold CallTimed
      rcases hphase with ⟨hwaiting, hgroup, hstarted⟩ | ⟨hrunning, hstarted, -, -⟩
      · rw [hwaiting]
        exact ⟨hgroup, hstarted, hsettled⟩
      · rw [hrunning]
        exact ⟨⟨s.now, hstarted, hnow.ge⟩, hsettled⟩
  · exact (h k c₁ hk).mono (le_add_of_nonneg_right htime) le_rfl fun _ _ _ hin => hin
  · have hlength : s.calls.length ≤ t.calls.length := by rw [hcalls, List.length_set]
    have hmono : ∀ {c₂}, CallTimed env s k c₂ → CallTimed env t k c₂ := fun h₂ =>
      h₂.mono hnow.ge hlength fun j _ g hin => (inGroup_turned hc hturn hcalls).1 hin
    rw [get_turned hc hcalls] at hk
    split at hk
    · next hik =>
      cases hk
      subst hik
      exact hmono ((h i c hc).turned hlane hturn)
    · exact hmono (h k c₁ hk)

/-! ## Two calls of a group -/

/-- A turn keeps the times of a call that has ended. -/
theorem Ended.turned {u : ℚ} {x : Settlement} (h : Ended s c u x) (htimed : CallTimed env s i c)
    (hturn : Turn env s i c c') : Ended s c' u x := by
  cases hturn with
  | start hphase =>
    unfold CallTimed at htimed
    rw [hphase] at htimed
    exact absurd (htimed.2.1.symm.trans h.startedAt) nofun
  | free _ hphase =>
    unfold CallTimed at htimed
    rw [hphase] at htimed
    exact absurd (htimed.2.symm.trans h.settled) nofun
  | settle _ _ hphase =>
    unfold CallTimed at htimed
    rw [hphase] at htimed
    exact absurd (htimed.2.symm.trans h.settled) nofun
  | _ => exact ⟨h.startedAt, h.settled, h.order, h.past, h.calls⟩

/-- A call starts behind all the earlier ones of its group, and behind their gaps. -/
theorem Timed.start_apart (h : Timed env s) (hlane : Lane s) (hc : s.calls[i]? = some c)
    (hc' : s.calls[j]? = some c') (hij : i < j) (hrotating : c.group ≠ none)
    (hgroup : c'.group = c.group) (hprev : s.tailFulfilled c'.prevTail) :
    ∃ v x, Ended s c v x ∧ x.time ≤ s.now ∧ (j < x.calls → x.time + settleGap env ≤ s.now) := by
  obtain ⟨g, hg⟩ := Option.ne_none_iff_exists'.1 hrotating
  have hearlier := hlane.earlier_released (hlane.behind j c' g hc' (hgroup.trans hg)) hprev
  obtain ⟨c₁, hc₁, hphase⟩ := hearlier i hij ⟨c, hc, hg⟩
  obtain rfl := some.inj (hc.symm.trans hc₁)
  have htimed := h i c hc
  unfold CallTimed at htimed
  rw [hphase] at htimed
  obtain ⟨v, x, hx, hgap⟩ := htimed
  exact ⟨v, x, hx, hx.past, fun hj => hgap ⟨j, g, hij, hj, hg, c', hc', hgroup.trans hg⟩⟩

theorem Apart.step (h : Apart env s) (htimed : Timed env s) (hlane : Lane s)
    (hstep : RefreshLanes.step env s e = some t) : Apart env t := by
  intro k l c₁ c₂ u hpair
  obtain ⟨hkl, hk, hl, hrotating, hgroup, hu⟩ := hpair
  rcases step_cases hstep with ⟨provider, rfl⟩ | ⟨time, htime, rfl⟩ |
    ⟨i, c, c', hc, hturn, hcalls, hnow, -⟩
  · obtain ⟨c, hcalls, hnow, -, -, -, hphase, -, -⟩ := serializeRefresh_spec s provider
    have hlength : s.calls.length ≤ (serializeRefresh s provider).calls.length := by
      rw [hcalls, List.length_append]
      exact Nat.le_add_right _ _
    rcases (get_called hcalls).1 hl with hl | ⟨rfl, rfl⟩
    · rcases (get_called hcalls).1 hk with hk | ⟨rfl, -⟩
      · obtain ⟨v, x, hx, hrest⟩ := h k l c₁ c₂ u ⟨hkl, hk, hl, hrotating, hgroup, hu⟩
        exact ⟨v, x, ⟨hx.startedAt, hx.settled, hx.order, hnow ▸ hx.past,
          hx.calls.trans hlength⟩, hrest⟩
      · obtain ⟨hlt, -⟩ := List.getElem?_eq_some_iff.1 hl
        omega
    · rcases hphase with ⟨-, -, hstarted⟩ | ⟨-, -, -, hnone⟩
      · exact absurd (hstarted.symm.trans hu) nofun
      · exact absurd (hgroup.symm.trans hnone) hrotating
  · obtain ⟨v, x, hx, hrest⟩ := h k l c₁ c₂ u ⟨hkl, hk, hl, hrotating, hgroup, hu⟩
    exact ⟨v, x, ⟨hx.startedAt, hx.settled, hx.order,
      hx.past.trans (le_add_of_nonneg_right htime), hx.calls⟩, hrest⟩
  · have hlength : s.calls.length = t.calls.length := by rw [hcalls, List.length_set]
    have hafter : ∀ {c₀ : RefreshCall} {v x}, Ended s c₀ v x → Ended t c₀ v x := fun hx =>
      ⟨hx.startedAt, hx.settled, hx.order, hnow ▸ hx.past, hlength ▸ hx.calls⟩
    -- the calls of the pair before the turn
    obtain ⟨b₁, hb₁, hgroup₁, hturned⟩ : ∃ b₁, s.calls[k]? = some b₁ ∧ b₁.group = c₁.group ∧
        ∀ v x, Ended s b₁ v x → Ended t c₁ v x := by
      rw [get_turned hc hcalls] at hk
      split at hk
      · next hik =>
        cases hk
        subst hik
        exact ⟨c, hc, hturn.group.symm, fun v x hx => hafter (hx.turned (htimed i c hc) hturn)⟩
      · exact ⟨c₁, hk, rfl, fun v x hx => hafter hx⟩
    obtain ⟨b₂, hb₂, hgroup₂, hstarted⟩ : ∃ b₂, s.calls[l]? = some b₂ ∧ b₂.group = c₂.group ∧
        (b₂.startedAt = some u ∨ s.tailFulfilled b₂.prevTail ∧ u = s.now) := by
      rw [get_turned hc hcalls] at hl
      split at hl
      · next hil =>
        cases hl
        subst hil
        refine ⟨c, hc, hturn.group.symm, ?_⟩
        cases hturn with
        | start _ hprev => exact .inr ⟨hprev, (some.inj hu).symm⟩
        | _ => exact .inl hu
      · exact ⟨c₂, hl, rfl, .inl hu⟩
    have hrotating₁ : b₁.group ≠ none := hgroup₁ ▸ hrotating
    have hgroup₁₂ : b₂.group = b₁.group := by rw [hgroup₁, hgroup₂, hgroup]
    rcases hstarted with hstarted | ⟨hprev, rfl⟩
    · obtain ⟨v, x, hx, hrest⟩ := h k l b₁ b₂ u ⟨hkl, hb₁, hb₂, hrotating₁, hgroup₁₂, hstarted⟩
      exact ⟨v, x, hturned v x hx, hrest⟩
    · obtain ⟨v, x, hx, hrest⟩ := htimed.start_apart hlane hb₁ hb₂ hkl hrotating₁ hgroup₁₂ hprev
      exact ⟨v, x, hturned v x hx, hrest⟩

/-! ## Every run -/

structure Kept (env : Env) (s : State) : Prop where
  lane : Lane s
  timed : Timed env s
  apart : Apart env s

theorem Kept.step (h : Kept env s) (hstep : RefreshLanes.step env s e = some t) : Kept env t :=
  ⟨h.lane.step hstep, h.timed.step h.lane hstep, h.apart.step h.timed h.lane hstep⟩

theorem Kept.start : Kept env start where
  lane := Lane.start
  timed _ _ h := absurd h nofun
  apart _ _ _ _ _ h := absurd h.first nofun

theorem Kept.exec {es : List Event} (h : Kept env s)
    (hrun : Trace.exec (RefreshLanes.step env) s es = some t) : Kept env t :=
  Trace.exec_invariant (fun _ _ _ h hstep => h.step hstep) h hrun

theorem Kept.exclusive (h : Kept env s) (hlt : i < j) (hi : Running s i g) : ¬ Running s j g := by
  rintro ⟨c', hc', hg', hphase'⟩
  obtain ⟨c, hc, hg, hphase⟩ := hi
  have hprev := h.lane.began j c' hc' (hphase' ▸ nofun)
  obtain ⟨c₁, hc₁, hreleased⟩ :=
    h.lane.earlier_released (h.lane.behind j c' g hc' hg') hprev i hlt ⟨c, hc, hg⟩
  obtain rfl := some.inj (hc.symm.trans hc₁)
  exact absurd (hphase.symm.trans hreleased) nofun

theorem Kept.serialized (h : Kept env s) : Serialized s where
  exclusive i j g hi hj := by
    rcases Nat.lt_trichotomy i j with hlt | heq | hlt
    · exact absurd hj (h.exclusive hlt hi)
    · exact heq
    · exact absurd hi (h.exclusive hlt hj)
  ordered i j c c' u hpair := by
    obtain ⟨v, x, hx, hle, -⟩ := h.apart i j c c' u hpair
    exact ⟨v, x, hx.startedAt, hx.settled, hx.order, hle⟩

theorem Kept.spaced (h : Kept env s) {gap : ℚ} (hgap : gap ≤ settleGap env) : Spaced gap s := by
  intro i j c c' u x hpair hsettled hj
  obtain ⟨v, x', hx', -, hfar⟩ := h.apart i j c c' u hpair
  obtain rfl := some.inj (hsettled.symm.trans hx'.settled)
  have hfar := hfar hj
  linarith

end OmniRoute.RefreshLanes
