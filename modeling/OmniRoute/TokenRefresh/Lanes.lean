import OmniRoute.Lib.OrdMap
import OmniRoute.Lib.Trace

/-!
# Refresh lanes

`open-sse/services/refreshSerializer.ts`: the refreshes of one rotation group run one after the
other, each behind the promise tail it finds in `groupTail`. The reactions of promises, the ends of
the refreshes, the timers and the passing of time are events that come in any order in which the
state enables them.

**Main result (`Lane.exec`).** In every run each call of a group waits for the call before it, or
for none when all earlier ones have released the lane, so a call that has started finds every
earlier call of its group released (`Lane.earlier_released`).
-/

namespace OmniRoute.RefreshLanes

open Option

/-- What a lookup in `ROTATION_LOCK_GROUP` finds: a group, or a member of `Object.prototype`, which
is a key of the map of lanes like any other. -/
inductive LaneKey
  | group (name : String)
  | inherited (name : String)
  deriving DecidableEq

def rotationLockGroup : List (String × String) :=
  [("codex", "openai-auth0"), ("openai", "openai-auth0"), ("claude", "anthropic-oauth"),
    ("gitlab-duo", "gitlab-duo"), ("kiro", "kiro"), ("kimi-coding", "kimi-coding")]

def objectPrototype : List String :=
  ["constructor", "__defineGetter__", "__defineSetter__", "hasOwnProperty", "__lookupGetter__",
    "__lookupSetter__", "isPrototypeOf", "propertyIsEnumerable", "toString", "valueOf",
    "__proto__", "toLocaleString"]

def rotationGroupFor (provider : String) : Option LaneKey :=
  match rotationLockGroup.lookup provider with
  | some name => some (.group name)
  | none => if provider ∈ objectPrototype then some (.inherited provider) else none

/-- `CODEX_REFRESH_SPACING_MS`, and `Number` where it is finite. -/
structure Env where
  rawEnv : Option String
  number : String → Option ℚ

def defaultRefreshSpacingMs : ℚ := 2000

def getRefreshSpacingMs (env : Env) : ℚ :=
  match env.rawEnv with
  | none => defaultRefreshSpacingMs
  | some rawEnv =>
    if rawEnv = "" then defaultRefreshSpacingMs
    else match env.number rawEnv with
      | some raw => if 0 ≤ raw then raw else defaultRefreshSpacingMs
      | none => defaultRefreshSpacingMs

/-- The delay of `setTimeout`: one that is too small or too large is 1, a fraction is dropped. -/
def timerDelay (ms : ℚ) : ℚ := if 1 ≤ ms ∧ ms ≤ 2147483647 then ⌊ms⌋ else 1

inductive Outcome
  | resolved
  | rejected
  deriving DecidableEq

/-- Where a call is: in front of `fn`, in it, behind it, in the settle gap, or past the release. -/
inductive Phase
  | waiting
  | running
  | settled
  | delaying (due : ℚ)
  | released
  deriving DecidableEq

/-- The end of `fn`: when, how, and how many calls had been made. -/
structure Settlement where
  time : ℚ
  outcome : Outcome
  calls : ℕ

/-- A call of `serializeRefresh`. Its `prevTail` is the number of the call whose tail it is, or
`none` for `Promise.resolve()`, and `tail` tells whether `myTail` is fulfilled. -/
structure RefreshCall where
  provider : String
  prevTail : Option ℕ
  phase : Phase
  tail : Bool
  startedAt : Option ℚ
  settled : Option Settlement

def RefreshCall.group (c : RefreshCall) : Option LaneKey := rotationGroupFor c.provider

/-- The calls in the order they are made, the tails by the number of the call, and the time. -/
structure State where
  calls : List RefreshCall
  groupTail : OrdMap LaneKey ℕ
  now : ℚ

def State.tailFulfilled (s : State) : Option ℕ → Prop
  | none => True
  | some i => ∃ c, s.calls[i]? = some c ∧ c.tail = true

instance (s : State) : ∀ p, Decidable (s.tailFulfilled p)
  | none => .isTrue trivial
  | some i =>
    match h : s.calls[i]? with
    | none => .isFalse (by simp [State.tailFulfilled, h])
    | some c => decidable_of_iff (c.tail = true) (by simp [State.tailFulfilled, h])

inductive Event
  | call (provider : String)
  /-- The `await` of the previous tail is over. -/
  | start (i : ℕ)
  /-- The promise of `fn` settles. -/
  | settle (i : ℕ) (outcome : Outcome)
  /-- The `finally` block begins. -/
  | finish (i : ℕ)
  | timer (i : ℕ)
  /-- `prevTail.then(() => mine)` is fulfilled. -/
  | tail (i : ℕ)
  | pass (time : ℚ)

def State.put (s : State) (i : ℕ) (c : RefreshCall) : State :=
  { s with calls := s.calls.set i c }

/-- `releaseMine()` and the deletion of a tail that is still the last. -/
def State.release (s : State) (i : ℕ) (c : RefreshCall) (g : LaneKey) : State :=
  { s.put i { c with phase := .released } with
    groupTail := if s.groupTail.get g = some i then s.groupTail.delete g else s.groupTail }

def serializeRefresh (s : State) (provider : String) : State :=
  match rotationGroupFor provider with
  | none => { s with calls := s.calls ++ [⟨provider, none, .running, false, some s.now, none⟩] }
  | some g =>
    { s with
      calls := s.calls ++ [⟨provider, s.groupTail.get g, .waiting, false, none, none⟩]
      groupTail := s.groupTail.set g s.calls.length }

/-- The `finally` block up to its end or to the settle gap. -/
def finishCall (env : Env) (s : State) (i : ℕ) (c : RefreshCall) (g : LaneKey) : State :=
  let hasSuccessor := s.groupTail.get g ≠ some i
  if hasSuccessor ∧ 0 < getRefreshSpacingMs env then
    s.put i { c with phase := .delaying (s.now + timerDelay (getRefreshSpacingMs env)) }
  else s.release i c g

/-- What happens to the call `i`, which is `c`. -/
def turn (env : Env) (s : State) (i : ℕ) (c : RefreshCall) : Event → Option State
  | .start _ =>
    if c.phase = .waiting ∧ s.tailFulfilled c.prevTail then
      some (s.put i { c with phase := .running, startedAt := some s.now })
    else none
  | .settle _ outcome =>
    if c.phase = .running then
      let settled := some ⟨s.now, outcome, s.calls.length⟩
      match c.group with
      | none => some (s.put i { c with phase := .released, settled })
      | some _ => some (s.put i { c with phase := .settled, settled })
    else none
  | .finish _ =>
    match c.phase, c.group with
    | .settled, some g => some (finishCall env s i c g)
    | _, _ => none
  | .timer _ =>
    match c.phase, c.group with
    | .delaying due, some g => if due ≤ s.now then some (s.release i c g) else none
    | _, _ => none
  | .tail _ =>
    if c.phase = .released ∧ s.tailFulfilled c.prevTail then some (s.put i { c with tail := true })
    else none
  | _ => none

def step (env : Env) (s : State) (e : Event) : Option State :=
  match e with
  | .call provider => some (serializeRefresh s provider)
  | .pass time => if 0 ≤ time then some { s with now := s.now + time } else none
  | .start i => s.calls[i]?.bind fun c => turn env s i c e
  | .settle i _ => s.calls[i]?.bind fun c => turn env s i c e
  | .finish i => s.calls[i]?.bind fun c => turn env s i c e
  | .timer i => s.calls[i]?.bind fun c => turn env s i c e
  | .tail i => s.calls[i]?.bind fun c => turn env s i c e

def start : State := ⟨[], .empty, 0⟩

/-! ## One event -/

variable {env : Env} {s t : State} {e : Event} {i j : ℕ} {c c' : RefreshCall} {g : LaneKey}

/-- How one event changes the call `i`. -/
inductive Turn (env : Env) (s : State) (i : ℕ) (c : RefreshCall) : RefreshCall → Prop
  | start (hphase : c.phase = .waiting) (hprev : s.tailFulfilled c.prevTail) :
    Turn env s i c { c with phase := .running, startedAt := some s.now }
  | free (outcome : Outcome) (hphase : c.phase = .running) (hgroup : c.group = none) :
    Turn env s i c
      { c with phase := .released, settled := some ⟨s.now, outcome, s.calls.length⟩ }
  | settle (outcome : Outcome) (g : LaneKey) (hphase : c.phase = .running)
      (hgroup : c.group = some g) :
    Turn env s i c
      { c with phase := .settled, settled := some ⟨s.now, outcome, s.calls.length⟩ }
  | delay (hphase : c.phase = .settled) (hspacing : 0 < getRefreshSpacingMs env) :
    Turn env s i c { c with phase := .delaying (s.now + timerDelay (getRefreshSpacingMs env)) }
  | release (g : LaneKey) (hphase : c.phase = .settled) (hgroup : c.group = some g)
      (hlast : s.groupTail.get g = some i ∨ getRefreshSpacingMs env ≤ 0) :
    Turn env s i c { c with phase := .released }
  | timer (due : ℚ) (hphase : c.phase = .delaying due) (hdue : due ≤ s.now) :
    Turn env s i c { c with phase := .released }
  | tail (hphase : c.phase = .released) (hprev : s.tailFulfilled c.prevTail) :
    Turn env s i c { c with tail := true }

/-- The tails after a turn of the call `i`: the same, or without its own when it is released. -/
def TailsAfter (s t : State) (i : ℕ) (c c' : RefreshCall) : Prop :=
  t.groupTail = s.groupTail ∨
    ∃ g, c.group = some g ∧ s.groupTail.get g = some i ∧ c'.phase = .released ∧
      t.groupTail = s.groupTail.delete g

theorem release_spec (s : State) (i : ℕ) (c : RefreshCall) (hgroup : c.group = some g) :
    (s.release i c g).calls = s.calls.set i { c with phase := .released } ∧
      (s.release i c g).now = s.now ∧
      TailsAfter s (s.release i c g) i c { c with phase := .released } := by
  refine ⟨rfl, rfl, ?_⟩
  unfold State.release
  by_cases hlast : s.groupTail.get g = some i
  · exact .inr ⟨g, hgroup, hlast, rfl, if_pos hlast⟩
  · exact .inl (if_neg hlast)

/-- A turn changes one call and, when it releases the lane, may drop the tail of that call. -/
theorem turn_spec (h : turn env s i c e = some t) :
    ∃ c', Turn env s i c c' ∧ t.calls = s.calls.set i c' ∧ t.now = s.now ∧
      TailsAfter s t i c c' := by
  cases e with
  | call provider => exact absurd h nofun
  | pass time => exact absurd h nofun
  | start k =>
    simp only [turn] at h
    split at h
    · next hready =>
      cases h
      exact ⟨_, .start hready.1 hready.2, rfl, rfl, .inl rfl⟩
    · exact absurd h nofun
  | settle k outcome =>
    simp only [turn] at h
    split at h
    · next hphase =>
      split at h
      · next hgroup =>
        cases h
        exact ⟨_, .free outcome hphase hgroup, rfl, rfl, .inl rfl⟩
      · next g hgroup =>
        cases h
        exact ⟨_, .settle outcome g hphase hgroup, rfl, rfl, .inl rfl⟩
    · exact absurd h nofun
  | finish k =>
    simp only [turn] at h
    split at h
    · next g hphase hgroup =>
      cases h
      unfold finishCall
      dsimp only
      split
      · next hgap => exact ⟨_, .delay hphase hgap.2, rfl, rfl, .inl rfl⟩
      · next hgap =>
        obtain ⟨hcalls, hnow, htails⟩ := release_spec s i c hgroup
        refine ⟨_, .release g hphase hgroup ?_, hcalls, hnow, htails⟩
        by_cases hlast : s.groupTail.get g = some i
        · exact .inl hlast
        · exact .inr (not_lt.1 fun hpos => hgap ⟨hlast, hpos⟩)
    · exact absurd h nofun
  | timer k =>
    simp only [turn] at h
    split at h
    · next due g hphase hgroup =>
      split at h
      · next hdue =>
        cases h
        obtain ⟨hcalls, hnow, htails⟩ := release_spec s i c hgroup
        exact ⟨_, .timer due hphase hdue, hcalls, hnow, htails⟩
      · exact absurd h nofun
    · exact absurd h nofun
  | tail k =>
    simp only [turn] at h
    split at h
    · next hready =>
      cases h
      exact ⟨_, .tail hready.1 hready.2, rfl, rfl, .inl rfl⟩
    · exact absurd h nofun

/-- Everything that a step can do. -/
theorem step_cases (h : step env s e = some t) :
    (∃ provider, t = serializeRefresh s provider) ∨
    (∃ time, 0 ≤ time ∧ t = { s with now := s.now + time }) ∨
    ∃ i c c', s.calls[i]? = some c ∧ Turn env s i c c' ∧ t.calls = s.calls.set i c' ∧
      t.now = s.now ∧ TailsAfter s t i c c' := by
  have hturn : ∀ i, (s.calls[i]?.bind fun c => turn env s i c e) = some t →
      ∃ i c c', s.calls[i]? = some c ∧ Turn env s i c c' ∧ t.calls = s.calls.set i c' ∧
        t.now = s.now ∧ TailsAfter s t i c c' := by
    intro i hi
    obtain ⟨c, hc, ht⟩ := Option.bind_eq_some_iff.1 hi
    obtain ⟨c', hspec⟩ := turn_spec ht
    exact ⟨i, c, c', hc, hspec⟩
  cases e with
  | call provider => exact .inl ⟨provider, (some.inj h).symm⟩
  | pass time =>
    simp only [step] at h
    split at h
    · next htime => exact .inr (.inl ⟨time, htime, (some.inj h).symm⟩)
    · exact absurd h nofun
  | start i => exact .inr (.inr (hturn i h))
  | settle i outcome => exact .inr (.inr (hturn i h))
  | finish i => exact .inr (.inr (hturn i h))
  | timer i => exact .inr (.inr (hturn i h))
  | tail i => exact .inr (.inr (hturn i h))

section

variable (h : Turn env s i c c')
include h

theorem Turn.provider : c'.provider = c.provider := by
  cases h <;> rfl

theorem Turn.prevTail : c'.prevTail = c.prevTail := by
  cases h <;> rfl

theorem Turn.group : c'.group = c.group :=
  congrArg rotationGroupFor h.provider

/-- What is released stays so. -/
theorem Turn.released (hphase : c.phase = .released) : c'.phase = .released := by
  cases h with
  | start hwaiting => exact absurd (hwaiting.symm.trans hphase) nofun
  | settle _ _ hrunning => exact absurd (hrunning.symm.trans hphase) nofun
  | delay hsettled => exact absurd (hsettled.symm.trans hphase) nofun
  | tail => exact hphase
  | _ => rfl

theorem Turn.tail_of (htail : c.tail = true) : c'.tail = true := by
  cases h with
  | tail => rfl
  | _ => exact htail

end

/-! ## The chain of tails -/

def InGroup (s : State) (i : ℕ) (g : LaneKey) : Prop :=
  ∃ c, s.calls[i]? = some c ∧ c.group = some g

def Released (s : State) (i : ℕ) : Prop := ∃ c, s.calls[i]? = some c ∧ c.phase = .released

def EarlierReleased (s : State) (g : LaneKey) (n : ℕ) : Prop :=
  ∀ i < n, InGroup s i g → Released s i

/-- The tail that a call at the place `n` of the group is to wait for. -/
def Behind (s : State) (g : LaneKey) (n : ℕ) : Option ℕ → Prop
  | none => EarlierReleased s g n
  | some p => p < n ∧ InGroup s p g ∧ ∀ i, p < i → i < n → ¬ InGroup s i g

structure Lane (s : State) : Prop where
  began : ∀ (i : ℕ) (c : RefreshCall), s.calls[i]? = some c → c.phase ≠ .waiting →
    s.tailFulfilled c.prevTail
  tail : ∀ (i : ℕ) (c : RefreshCall), s.calls[i]? = some c → c.tail = true →
    c.phase = .released ∧ s.tailFulfilled c.prevTail
  behind : ∀ (j : ℕ) (c : RefreshCall) (g : LaneKey), s.calls[j]? = some c → c.group = some g →
    Behind s g j c.prevTail
  last : ∀ g, Behind s g s.calls.length (s.groupTail.get g)

variable {p : Option ℕ}

/-- Behind a tail that is fulfilled every earlier call of the group has released the lane. -/
theorem Lane.earlier_released (h : Lane s) {n : ℕ} (hbehind : Behind s g n p)
    (htail : s.tailFulfilled p) : EarlierReleased s g n := by
  induction n using Nat.strong_induction_on generalizing p with
  | _ n ih =>
    cases p with
    | none => exact hbehind
    | some p =>
      obtain ⟨hlt, ⟨c, hc, hgroup⟩, hbetween⟩ := hbehind
      obtain ⟨c', hc', htrue⟩ := htail
      obtain rfl := some.inj (hc.symm.trans hc')
      obtain ⟨hphase, hprev⟩ := h.tail p c hc htrue
      have hearlier := ih p hlt (h.behind p c g hc hgroup) hprev
      intro i hi hin
      rcases Nat.lt_trichotomy i p with hip | rfl | hip
      · exact hearlier i hip hin
      · exact ⟨c, hc, hphase⟩
      · exact absurd hin (hbetween i hip hi)

theorem Lane.start : Lane start where
  began _ _ h := absurd h nofun
  tail _ _ h := absurd h nofun
  behind _ _ _ h := absurd h nofun
  last _ _ h := absurd h (Nat.not_lt_zero _)

/-- A call takes a turn only behind a tail that is fulfilled. -/
theorem Turn.prev_fulfilled (hturn : Turn env s i c c') (h : Lane s) (hc : s.calls[i]? = some c) :
    s.tailFulfilled c.prevTail := by
  cases hturn with
  | start _ hprev => exact hprev
  | free _ hphase => exact h.began i c hc (hphase ▸ nofun)
  | settle _ _ hphase => exact h.began i c hc (hphase ▸ nofun)
  | delay hphase => exact h.began i c hc (hphase ▸ nofun)
  | release _ hphase => exact h.began i c hc (hphase ▸ nofun)
  | timer _ hphase => exact h.began i c hc (hphase ▸ nofun)
  | tail _ hprev => exact hprev

/-! ### A turn -/

section Turned

variable (hc : s.calls[i]? = some c) (hturn : Turn env s i c c')
  (hcalls : t.calls = s.calls.set i c')

include hc hturn hcalls

omit hturn in
theorem get_turned (k : ℕ) : t.calls[k]? = if i = k then some c' else s.calls[k]? := by
  obtain ⟨hlt, -⟩ := List.getElem?_eq_some_iff.1 hc
  rw [hcalls, List.getElem?_set]
  by_cases hik : i = k
  · rw [if_pos hik, if_pos hik, if_pos (hik ▸ hlt)]
  · rw [if_neg hik, if_neg hik]

theorem inGroup_turned {k : ℕ} : InGroup t k g ↔ InGroup s k g := by
  unfold InGroup
  rw [get_turned hc hcalls]
  by_cases hik : i = k
  · rw [if_pos hik, ← hik, hc]
    constructor
    · rintro ⟨c₁, hc₁, hgroup⟩
      cases hc₁
      exact ⟨c, rfl, hturn.group ▸ hgroup⟩
    · rintro ⟨c₁, hc₁, hgroup⟩
      cases hc₁
      exact ⟨c', rfl, hturn.group.trans hgroup⟩
  · rw [if_neg hik]

theorem released_turned {k : ℕ} (h : Released s k) : Released t k := by
  obtain ⟨c₁, hc₁, hphase⟩ := h
  unfold Released
  rw [get_turned hc hcalls]
  by_cases hik : i = k
  · rw [← hik, hc] at hc₁
    cases hc₁
    exact ⟨c', if_pos hik, hturn.released hphase⟩
  · exact ⟨c₁, (if_neg hik).trans hc₁, hphase⟩

theorem tailFulfilled_turned (h : s.tailFulfilled p) : t.tailFulfilled p := by
  cases p with
  | none => trivial
  | some k =>
    obtain ⟨c₁, hc₁, htail⟩ := h
    by_cases hik : i = k
    · rw [← hik, hc] at hc₁
      cases hc₁
      exact ⟨c', (get_turned hc hcalls k).trans (if_pos hik), hturn.tail_of htail⟩
    · exact ⟨c₁, ((get_turned hc hcalls k).trans (if_neg hik)).trans hc₁, htail⟩

theorem earlierReleased_turned {n : ℕ} (h : EarlierReleased s g n) : EarlierReleased t g n :=
  fun k hk hin => released_turned hc hturn hcalls
    (h k hk ((inGroup_turned hc hturn hcalls).1 hin))

theorem behind_turned {n : ℕ} (h : Behind s g n p) : Behind t g n p := by
  cases p with
  | none => exact earlierReleased_turned hc hturn hcalls h
  | some p =>
    exact ⟨h.1, (inGroup_turned hc hturn hcalls).2 h.2.1,
      fun k hpk hkn hin => h.2.2 k hpk hkn ((inGroup_turned hc hturn hcalls).1 hin)⟩

theorem Lane.turned (h : Lane s) (htails : TailsAfter s t i c c') : Lane t := by
  have hprev := hturn.prev_fulfilled h hc
  have hget := get_turned hc hcalls
  have hlength : t.calls.length = s.calls.length := by rw [hcalls, List.length_set]
  have hmono : ∀ {p}, s.tailFulfilled p → t.tailFulfilled p := tailFulfilled_turned hc hturn hcalls
  refine ⟨fun k c₁ hk hphase => ?_, fun k c₁ hk htail => ?_, fun k c₁ g hk hgroup => ?_,
    fun g => ?_⟩
  · rw [hget] at hk
    split at hk
    · cases hk
      exact hmono (hturn.prevTail ▸ hprev)
    · exact hmono (h.began k c₁ hk hphase)
  · rw [hget] at hk
    split at hk
    · cases hk
      refine ⟨?_, hmono (hturn.prevTail ▸ hprev)⟩
      cases hturn with
      | tail hphase => exact hphase
      | start hphase => exact absurd (hphase.symm.trans (h.tail i c hc htail).1) nofun
      | settle _ _ hphase => exact absurd (hphase.symm.trans (h.tail i c hc htail).1) nofun
      | delay hphase => exact absurd (hphase.symm.trans (h.tail i c hc htail).1) nofun
      | _ => rfl
    · exact (h.tail k c₁ hk htail).imp_right hmono
  · rw [hget] at hk
    split at hk
    · next hik =>
      cases hk
      rw [hturn.prevTail]
      exact behind_turned hc hturn hcalls (hik ▸ h.behind i c g hc (hturn.group ▸ hgroup))
    · exact behind_turned hc hturn hcalls (h.behind k c₁ g hk hgroup)
  · rw [hlength]
    have hlast := h.last g
    rcases htails with heq | ⟨g', hgroup, hown, hphase, heq⟩
    · rw [heq]
      exact behind_turned hc hturn hcalls hlast
    · rw [heq, OrdMap.get_delete]
      by_cases hg : g = g'
      · -- the last call of the group has released the lane, and all earlier ones had
        subst hg
        rw [if_pos rfl]
        rw [hown] at hlast
        have hearlier := earlierReleased_turned hc hturn hcalls
          (h.earlier_released (h.behind i c g hc hgroup) hprev)
        intro k hk hin
        rcases Nat.lt_trichotomy k i with hki | rfl | hki
        · exact hearlier k hki hin
        · exact ⟨c', (hget k).trans (if_pos rfl), hphase⟩
        · exact absurd ((inGroup_turned hc hturn hcalls).1 hin) (hlast.2.2 k hki hk)
      · rw [if_neg hg]
        exact behind_turned hc hturn hcalls hlast

end Turned

/-! ### A new call -/

section Called

variable (hcalls : t.calls = s.calls ++ [c])

include hcalls

theorem get_called {k : ℕ} {c₁ : RefreshCall} :
    t.calls[k]? = some c₁ ↔
      s.calls[k]? = some c₁ ∨ k = s.calls.length ∧ c = c₁ := by
  rw [hcalls, List.getElem?_append]
  split
  · next hlt =>
    have hne : k ≠ s.calls.length := hlt.ne
    simp [hne]
  · next hge =>
    rw [List.getElem?_singleton, List.getElem?_eq_none (not_lt.1 hge)]
    have hzero : k - s.calls.length = 0 ↔ k = s.calls.length := by omega
    simp [hzero]

theorem inGroup_called {k : ℕ} :
    InGroup t k g ↔ InGroup s k g ∨ k = s.calls.length ∧ c.group = some g := by
  unfold InGroup
  constructor
  · rintro ⟨c₁, hc₁, hgroup⟩
    rcases (get_called hcalls).1 hc₁ with hc₁ | ⟨hk, rfl⟩
    · exact .inl ⟨c₁, hc₁, hgroup⟩
    · exact .inr ⟨hk, hgroup⟩
  · rintro (⟨c₁, hc₁, hgroup⟩ | ⟨hk, hgroup⟩)
    · exact ⟨c₁, (get_called hcalls).2 (.inl hc₁), hgroup⟩
    · exact ⟨c, (get_called hcalls).2 (.inr ⟨hk, rfl⟩), hgroup⟩

theorem tailFulfilled_called (h : s.tailFulfilled p) : t.tailFulfilled p := by
  cases p with
  | none => trivial
  | some k =>
    obtain ⟨c₁, hc₁, htail⟩ := h
    exact ⟨c₁, (get_called hcalls).2 (.inl hc₁), htail⟩

/-- A new call is no obstacle to those in front of it, nor to those of another group. -/
theorem behind_called {n m : ℕ} (h : Behind s g n p)
    (hin : ∀ i < m, InGroup t i g → i < n ∧ InGroup s i g) (hle : n ≤ m) : Behind t g m p := by
  cases p with
  | none =>
    intro i hi hgroup
    obtain ⟨hlt, hold⟩ := hin i hi hgroup
    obtain ⟨c₁, hc₁, hphase⟩ := h i hlt hold
    exact ⟨c₁, (get_called hcalls).2 (.inl hc₁), hphase⟩
  | some p =>
    obtain ⟨hlt, hgroup, hbetween⟩ := h
    refine ⟨hlt.trans_le hle, (inGroup_called hcalls).2 (.inl hgroup), fun i hpi him hgroup' => ?_⟩
    obtain ⟨hin', hold⟩ := hin i him hgroup'
    exact hbetween i hpi hin' hold

theorem Lane.called (h : Lane s) (htail : c.tail = false)
    (hbegan : c.phase ≠ .waiting → c.prevTail = none)
    (hbehind : ∀ g, c.group = some g → c.prevTail = s.groupTail.get g)
    (htails : ∀ g, t.groupTail.get g =
      if c.group = some g then some s.calls.length else s.groupTail.get g) : Lane t := by
  have hold : ∀ {k n : ℕ} {g : LaneKey}, k < n → n ≤ s.calls.length → InGroup t k g →
      k < n ∧ InGroup s k g := by
    intro k n g hk hn hin
    rcases (inGroup_called hcalls).1 hin with hin | ⟨heq, -⟩
    · exact ⟨hk, hin⟩
    · omega
  refine ⟨fun k c₁ hk hphase => ?_, fun k c₁ hk htrue => ?_, fun k c₁ g hk hgroup => ?_,
    fun g => ?_⟩
  · rcases (get_called hcalls).1 hk with hk | ⟨-, rfl⟩
    · exact tailFulfilled_called hcalls (h.began k c₁ hk hphase)
    · rw [hbegan hphase]
      trivial
  · rcases (get_called hcalls).1 hk with hk | ⟨-, rfl⟩
    · exact (h.tail k c₁ hk htrue).imp_right (tailFulfilled_called hcalls)
    · exact absurd (htail.symm.trans htrue) Bool.false_ne_true
  · rcases (get_called hcalls).1 hk with hk | ⟨rfl, rfl⟩
    · obtain ⟨hlt, -⟩ := List.getElem?_eq_some_iff.1 hk
      exact behind_called hcalls (h.behind k c₁ g hk hgroup) (fun i hi => hold hi hlt.le) le_rfl
    · rw [hbehind g hgroup]
      exact behind_called hcalls (h.last g) (fun i hi => hold hi le_rfl) le_rfl
  · have hlength : t.calls.length = s.calls.length + 1 := by
      rw [hcalls, List.length_append, List.length_singleton]
    rw [hlength, htails]
    split
    · next hgroup =>
      refine ⟨Nat.lt_succ_self _, (inGroup_called hcalls).2 (.inr ⟨rfl, hgroup⟩),
        fun i hi hlt => ?_⟩
      omega
    · next hgroup =>
      refine behind_called hcalls (h.last g) (fun i hi hin => ?_) (Nat.le_succ _)
      rcases (inGroup_called hcalls).1 hin with hin' | ⟨-, hgroup'⟩
      · obtain ⟨c₁, hc₁, -⟩ := id hin'
        obtain ⟨hlt, -⟩ := List.getElem?_eq_some_iff.1 hc₁
        exact ⟨hlt, hin'⟩
      · exact absurd hgroup' hgroup

end Called

theorem serializeRefresh_spec (s : State) (provider : String) :
    ∃ c, (serializeRefresh s provider).calls = s.calls ++ [c] ∧
      (serializeRefresh s provider).now = s.now ∧ c.tail = false ∧ c.provider = provider ∧
      c.settled = none ∧
      (c.phase = .waiting ∧ c.group ≠ none ∧ c.startedAt = none ∨
        c.phase = .running ∧ c.startedAt = some s.now ∧ c.prevTail = none ∧ c.group = none) ∧
      (∀ g, c.group = some g → c.prevTail = s.groupTail.get g) ∧
      ∀ g, (serializeRefresh s provider).groupTail.get g =
        if c.group = some g then some s.calls.length else s.groupTail.get g := by
  unfold serializeRefresh
  split
  · next hgroup =>
    have hnone : ∀ {c : RefreshCall}, c.provider = provider → c.group = none := by
      rintro c rfl
      exact hgroup
    refine ⟨_, rfl, rfl, rfl, rfl, rfl, .inr ⟨rfl, rfl, rfl, hnone rfl⟩, fun g hg => ?_,
      fun g => ?_⟩
    · exact absurd ((hnone rfl).symm.trans hg).symm (Option.some_ne_none g)
    · rw [hnone rfl]
      rfl
  · next g hgroup =>
    have hsome : ∀ {c : RefreshCall}, c.provider = provider → c.group = some g := by
      rintro c rfl
      exact hgroup
    refine ⟨_, rfl, rfl, rfl, rfl, rfl, .inl ⟨rfl, ?_, rfl⟩, fun g' hg' => ?_, fun g' => ?_⟩
    · rw [hsome rfl]
      exact Option.some_ne_none g
    · rw [hsome rfl] at hg'
      rw [some.inj hg']
    · rw [hsome rfl, OrdMap.get_set]
      by_cases hg : g = g'
      · rw [if_pos hg.symm, if_pos (congrArg some hg)]
      · rw [if_neg (Ne.symm hg), if_neg fun heq => hg (some.inj heq)]

theorem Lane.step (h : Lane s) (hstep : step env s e = some t) : Lane t := by
  rcases step_cases hstep with ⟨provider, rfl⟩ | ⟨time, -, rfl⟩ |
    ⟨i, c, c', hc, hturn, hcalls, -, htails⟩
  · obtain ⟨c, hcalls, -, htail, -, -, hphase, hbehind, htails⟩ := serializeRefresh_spec s provider
    refine Lane.called hcalls h htail (fun hne => ?_) hbehind htails
    rcases hphase with ⟨hwaiting, -⟩ | ⟨-, -, hnone, -⟩
    · exact absurd hwaiting hne
    · exact hnone
  · exact ⟨h.began, h.tail, h.behind, h.last⟩
  · exact Lane.turned hc hturn hcalls h htails

end OmniRoute.RefreshLanes
