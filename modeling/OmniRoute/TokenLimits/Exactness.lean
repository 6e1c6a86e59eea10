import OmniRoute.Lib.Trace
import OmniRoute.TokenLimits.Counter

/-!
# When a token-limit counter is exact

A run interleaves, for any requests, the insertion of a request's row into `usage_history` and
the deferred `recordTokenUsage` of the request, with reads of any limit at any time. Windows
roll over as the events' clock does.

Every recorded request adds its tokens to the counter of its window, whether the counter was
seeded or not. A row of the history that the counter is seeded with is of a request that is
recorded in this step or later, so its tokens are counted twice.

**Main result (`counter_exact_iff`).** The counter of a limit and window is the sum of the
billable tokens of the window's requests exactly when no step of the run seeds it from a history
with tokens in its scope.
-/

namespace OmniRoute.TokenLimits

open Trace Option

inductive Event
  | insertRow (r : Request)
  | recordTokenUsage (now : ℤ) (r : Request)
  | getCurrentWindowUsage (limit : TokenLimit) (now : ℤ) (forceFresh : Bool)

variable (cfg : Config)

/-- One event; only limits of the table are read. -/
def step (s : State) : Event → Option State
  | .insertRow r => some (insertRow r s)
  | .recordTokenUsage now r => some (recordTokenUsage cfg now r s)
  | .getCurrentWindowUsage limit now forceFresh =>
    if limit ∈ cfg.limits then some (getCurrentWindowUsage cfg limit now forceFresh s).2 else none

/-- The event records tokens for the limit in the window. -/
def Records (limit : TokenLimit) (windowStart : ℤ) (now : ℤ) (r : Request) : Prop :=
  limit.appliesTo r = true ∧ r.apiKeyId ≠ "" ∧ cfg.windowStart limit now = windowStart

instance (limit : TokenLimit) (windowStart now : ℤ) (r : Request) :
    Decidable (Records cfg limit windowStart now r) :=
  inferInstanceAs (Decidable (_ ∧ _ ∧ _))

/-- The request an event records for the limit in the window. -/
def recorded (limit : TokenLimit) (windowStart : ℤ) : Event → Option Request
  | .recordTokenUsage now r => if Records cfg limit windowStart now r then some r else none
  | _ => none

/-- The requests in the limit's scope that are recorded in the window. -/
def windowRequests (limit : TokenLimit) (windowStart : ℤ) (events : List Event) : List Request :=
  events.filterMap (recorded cfg limit windowStart)

/-- If the event seeds the counter, the history has no tokens to seed it with. -/
def SeedsNothing (limit : TokenLimit) (windowStart : ℤ) (s : State) : Event → Prop
  | .insertRow _ => True
  | .recordTokenUsage now r => Records cfg limit windowStart now r → r.billable ≠ 0 →
    s.counters.get (limit.id, windowStart) = none →
    seedWindowUsageFromHistory limit windowStart s.usageHistory = 0
  | .getCurrentWindowUsage limit' now _ => limit' = limit → cfg.windowStart limit now = windowStart →
    getWindowUsage s.counters limit.id windowStart = 0 → s.cachedWindow limit windowStart = false →
    seedWindowUsageFromHistory limit windowStart s.usageHistory = 0

instance (limit : TokenLimit) (windowStart : ℤ) (s : State) :
    DecidablePred (SeedsNothing cfg limit windowStart s)
  | .insertRow _ => .isTrue trivial
  | .recordTokenUsage now r => inferInstanceAs <| Decidable (Records cfg limit windowStart now r →
    r.billable ≠ 0 → s.counters.get (limit.id, windowStart) = none →
    seedWindowUsageFromHistory limit windowStart s.usageHistory = 0)
  | .getCurrentWindowUsage limit' now _ => inferInstanceAs <| Decidable (limit' = limit →
    cfg.windowStart limit now = windowStart →
    getWindowUsage s.counters limit.id windowStart = 0 → s.cachedWindow limit windowStart = false →
    seedWindowUsageFromHistory limit windowStart s.usageHistory = 0)

/-- What an event seeds the counter with. -/
def seeded (limit : TokenLimit) (windowStart : ℤ) (s : State) (e : Event) : ℕ :=
  if SeedsNothing cfg limit windowStart s e then 0
  else seedWindowUsageFromHistory limit windowStart s.usageHistory

def tokens (requests : List Request) : ℕ := (requests.map Request.billable).sum

/-! ## One step -/

variable {cfg} {limit : TokenLimit} {windowStart : ℤ} {s s' : State}

theorem seeded_eq_zero {e : Event} :
    seeded cfg limit windowStart s e = 0 ↔ SeedsNothing cfg limit windowStart s e := by
  rw [seeded]
  split
  · next h => exact iff_of_true rfl h
  · next h =>
    refine iff_of_false (fun hzero => h ?_) h
    cases e <;> simp [SeedsNothing, hzero]

theorem seeded_record {now : ℤ} {r : Request} (hrec : Records cfg limit windowStart now r)
    (hzero : r.billable ≠ 0) : seeded cfg limit windowStart s (.recordTokenUsage now r) =
      seedIfCold limit windowStart s.usageHistory s.counters := by
  rw [seeded, seedIfCold]
  by_cases hcold : s.counters.get (limit.id, windowStart) = none
  · rw [if_pos hcold]
    split
    · next h => exact (h hrec hzero hcold).symm
    · rfl
  · have hs : SeedsNothing cfg limit windowStart s (.recordTokenUsage now r) :=
      fun _ _ h => absurd h hcold
    rw [if_neg hcold, if_pos hs]

theorem getWindowUsage_recordTokenUsage {now : ℤ} {r : Request} (hlimit : limit ∈ cfg.limits)
    (henabled : limit.enabled = true) :
    getWindowUsage (recordTokenUsage cfg now r s).counters limit.id windowStart =
      getWindowUsage s.counters limit.id windowStart +
        tokens (recorded cfg limit windowStart (.recordTokenUsage now r)).toList +
        seeded cfg limit windowStart s (.recordTokenUsage now r) := by
  by_cases hrec : Records cfg limit windowStart now r
  · have htokens : tokens (recorded cfg limit windowStart (.recordTokenUsage now r)).toList =
        r.billable := by
      simp [recorded, hrec, tokens]
    rw [htokens]
    by_cases hzero : r.billable = 0
    · have hs : SeedsNothing cfg limit windowStart s (.recordTokenUsage now r) :=
        fun _ h => absurd hzero h
      rw [recordTokenUsage, if_pos (Or.inr hzero), hzero, seeded_eq_zero.2 hs]
      rfl
    · obtain ⟨happlies, hkey, rfl⟩ := id hrec
      have hmem : limit ∈ cfg.getTokenLimitsForRequest r :=
        List.mem_filter.2 ⟨hlimit, by simp [henabled, happlies]⟩
      have hnodup : ((cfg.getTokenLimitsForRequest r).map (·.id)).Nodup :=
        cfg.nodup.sublist (List.filter_sublist.map _)
      rw [recordTokenUsage, if_neg (by simp [hkey, hzero]), seeded_record hrec hzero,
        getWindowUsage_recordLimits hnodup hmem henabled]
      exact Nat.add_right_comm ..
  · have hs : SeedsNothing cfg limit windowStart s (.recordTokenUsage now r) :=
      fun h => absurd h hrec
    rw [seeded_eq_zero.2 hs, recorded, if_neg hrec, recordTokenUsage]
    split
    · rfl
    · next hlive =>
      -- a limit that is not recorded is not in the list, or its window is another
      have hother : ∀ l ∈ cfg.getTokenLimitsForRequest r, l.id = limit.id →
          cfg.windowStart l now ≠ windowStart := by
        intro l hl hid hstart
        obtain ⟨hmem, happlies⟩ := List.mem_filter.1 hl
        obtain rfl : l = limit := List.inj_on_of_nodup_map cfg.nodup hmem hlimit hid
        simp only [Bool.and_eq_true] at happlies
        exact hrec ⟨happlies.2, fun h => hlive (Or.inl h), hstart⟩
      simp only [getWindowUsage, get_recordLimits_of_not_mem hother]
      rfl

theorem getWindowUsage_readCounters {limit' : TokenLimit} {start : ℤ} (hlimit : limit ∈ cfg.limits)
    (hlimit' : limit' ∈ cfg.limits) :
    getWindowUsage (s.readCounters limit' start) limit.id windowStart =
      getWindowUsage s.counters limit.id windowStart +
        if limit' = limit ∧ start = windowStart ∧
          getWindowUsage s.counters limit.id windowStart = 0 ∧
          s.cachedWindow limit windowStart = false
        then seedWindowUsageFromHistory limit windowStart s.usageHistory else 0 := by
  by_cases hsame : limit' = limit ∧ start = windowStart
  · obtain ⟨rfl, rfl⟩ := hsame
    rw [State.readCounters]
    split
    · next h => rw [if_pos ⟨rfl, rfl, h⟩, getWindowUsage_seedCounter]
    · next h => rw [if_neg fun h' => h h'.2.2, Nat.add_zero]
  · rw [if_neg fun h => hsame ⟨h.1, h.2.1⟩, Nat.add_zero, State.readCounters]
    split
    · have hne : (limit.id, windowStart) ≠ (limit'.id, start) := by
        intro heq
        obtain ⟨hid, hstart⟩ := Prod.ext_iff.1 heq
        exact hsame ⟨(List.inj_on_of_nodup_map cfg.nodup hlimit hlimit' hid).symm, hstart.symm⟩
      rw [getWindowUsage, get_seedCounter_ne hne, getWindowUsage]
    · rfl

theorem freshCache_cachedWindow {now : ℤ} {used : ℕ}
    (h : s.freshCache limit windowStart now = some used) :
    s.cachedWindow limit windowStart = true := by
  rw [State.freshCache, map_eq_some_iff] at h
  obtain ⟨cached, hcached, -⟩ := h
  obtain ⟨hget, hfresh⟩ := filter_eq_some_iff.1 hcached
  simp only [decide_eq_true_eq] at hfresh
  simp [State.cachedWindow, hget, hfresh.1]

theorem getWindowUsage_getCurrentWindowUsage {limit' : TokenLimit} {now : ℤ} {forceFresh : Bool}
    (hlimit : limit ∈ cfg.limits) (hlimit' : limit' ∈ cfg.limits) :
    getWindowUsage (getCurrentWindowUsage cfg limit' now forceFresh s).2.counters limit.id
      windowStart = getWindowUsage s.counters limit.id windowStart +
        seeded cfg limit windowStart s (.getCurrentWindowUsage limit' now forceFresh) := by
  have hseeded : seeded cfg limit windowStart s (.getCurrentWindowUsage limit' now forceFresh) =
      if limit' = limit ∧ cfg.windowStart limit' now = windowStart ∧
        getWindowUsage s.counters limit.id windowStart = 0 ∧
        s.cachedWindow limit windowStart = false
      then seedWindowUsageFromHistory limit windowStart s.usageHistory else 0 := by
    rw [seeded]
    by_cases hcold : limit' = limit ∧ cfg.windowStart limit' now = windowStart ∧
        getWindowUsage s.counters limit.id windowStart = 0 ∧
        s.cachedWindow limit windowStart = false
    · rw [if_pos hcold]
      obtain ⟨rfl, hstart, husage, hcache⟩ := hcold
      split
      · next h => exact (h rfl hstart husage hcache).symm
      · rfl
    · rw [if_neg hcold, if_pos]
      rintro rfl hstart husage hcache
      exact absurd ⟨rfl, hstart, husage, hcache⟩ hcold
  rw [hseeded, getCurrentWindowUsage]
  split
  · next used hused =>
    rw [if_neg, Nat.add_zero]
    rintro ⟨rfl, rfl, -, hcache⟩
    split at hused
    · cases hused
    · simp [freshCache_cachedWindow hused] at hcache
  · exact getWindowUsage_readCounters hlimit hlimit'

/-- A counter grows by the tokens an event records and by what it seeds. -/
theorem getWindowUsage_step (windowStart : ℤ) (e : Event) (hlimit : limit ∈ cfg.limits)
    (henabled : limit.enabled = true) (hs : step cfg s e = some s') :
    getWindowUsage s'.counters limit.id windowStart =
      getWindowUsage s.counters limit.id windowStart +
        tokens (recorded cfg limit windowStart e).toList + seeded cfg limit windowStart s e := by
  cases e with
  | insertRow r =>
    simp only [step, some.injEq] at hs
    subst hs
    have hs : SeedsNothing cfg limit windowStart s (.insertRow r) := trivial
    rw [seeded_eq_zero.2 hs]
    rfl
  | recordTokenUsage now r =>
    simp only [step, some.injEq] at hs
    subst hs
    exact getWindowUsage_recordTokenUsage hlimit henabled
  | getCurrentWindowUsage limit' now forceFresh =>
    simp only [step, ite_none_right_eq_some, some.injEq] at hs
    obtain ⟨hlimit', rfl⟩ := hs
    exact getWindowUsage_getCurrentWindowUsage hlimit hlimit'

/-! ## Whole runs -/

theorem tokens_windowRequests_cons (e : Event) (events : List Event) :
    tokens (windowRequests cfg limit windowStart (e :: events)) =
      tokens (recorded cfg limit windowStart e).toList +
        tokens (windowRequests cfg limit windowStart events) := by
  cases h : recorded cfg limit windowStart e <;> simp [windowRequests, tokens, h]

/-- Nothing recorded is lost. -/
theorem getWindowUsage_exec_ge (windowStart : ℤ) {events : List Event}
    (hlimit : limit ∈ cfg.limits) (henabled : limit.enabled = true)
    (hrun : exec (step cfg) s events = some s') :
    getWindowUsage s.counters limit.id windowStart +
      tokens (windowRequests cfg limit windowStart events) ≤
        getWindowUsage s'.counters limit.id windowStart := by
  induction events generalizing s with
  | nil =>
    simp only [exec_nil, some.injEq] at hrun
    subst hrun
    exact Nat.le_refl _
  | cons e events ih =>
    obtain ⟨t, ht, hrest⟩ := exec_cons.1 hrun
    have hstep := getWindowUsage_step windowStart e hlimit henabled ht
    have hge := ih hrest
    rw [tokens_windowRequests_cons]
    omega

/-- And nothing is added to it exactly when no step seeds the counter. -/
theorem getWindowUsage_exec {events : List Event} (hlimit : limit ∈ cfg.limits)
    (henabled : limit.enabled = true) (hrun : exec (step cfg) s events = some s') :
    getWindowUsage s'.counters limit.id windowStart =
      getWindowUsage s.counters limit.id windowStart +
        tokens (windowRequests cfg limit windowStart events) ↔
    Trace.Meets (step cfg) (SeedsNothing cfg limit windowStart) s events := by
  induction events generalizing s with
  | nil =>
    simp only [exec_nil, some.injEq] at hrun
    subst hrun
    exact iff_of_true rfl trivial
  | cons e events ih =>
    obtain ⟨t, ht, hrest⟩ := exec_cons.1 hrun
    have hstep := getWindowUsage_step windowStart e hlimit henabled ht
    have hge := getWindowUsage_exec_ge windowStart hlimit henabled hrest
    have hmeets : Trace.Meets (step cfg) (SeedsNothing cfg limit windowStart) s (e :: events) ↔
        SeedsNothing cfg limit windowStart s e ∧
          Trace.Meets (step cfg) (SeedsNothing cfg limit windowStart) t events := by
      simp [Trace.Meets, ht]
    rw [hmeets, ← ih hrest, ← seeded_eq_zero, tokens_windowRequests_cons]
    omega

/-- Let `requests` be the requests of a window in the scope of an enabled limit, each recorded
once in the run. The limit's counter of that window is the sum of their billable tokens if and
only if, whenever a record or a read in the window finds no counter to add to or to return, the
history has no tokens of the window and scope yet. When and in which order the requests' rows are
inserted plays no other part. -/
theorem counter_exact_iff (cfg : Config) (limit : TokenLimit) (windowStart : ℤ)
    (events : List Event) (s : State) (requests : List Request) (hlimit : limit ∈ cfg.limits)
    (henabled : limit.enabled = true) (hrun : exec (step cfg) .init events = some s)
    (hrequests : requests.Perm (windowRequests cfg limit windowStart events)) :
    getWindowUsage s.counters limit.id windowStart = (requests.map Request.billable).sum ↔
      Trace.Meets (step cfg) (SeedsNothing cfg limit windowStart) .init events := by
  have hinit : getWindowUsage State.init.counters limit.id windowStart = 0 := rfl
  rw [(hrequests.map _).sum_eq, ← getWindowUsage_exec hlimit henabled hrun, hinit, Nat.zero_add]
  rfl

/-- In every run the counter of an enabled limit is at least the sum of the billable tokens of the
window's requests: in whatever order rows are inserted, tokens recorded and limits read, no tokens
are lost. -/
theorem counter_covers (cfg : Config) (limit : TokenLimit) (windowStart : ℤ) (events : List Event)
    (s : State) (requests : List Request) (hlimit : limit ∈ cfg.limits)
    (henabled : limit.enabled = true) (hrun : exec (step cfg) .init events = some s)
    (hrequests : requests.Perm (windowRequests cfg limit windowStart events)) :
    (requests.map Request.billable).sum ≤ getWindowUsage s.counters limit.id windowStart := by
  have hge := getWindowUsage_exec_ge windowStart hlimit henabled hrun
  have hinit : getWindowUsage State.init.counters limit.id windowStart = 0 := rfl
  rw [hinit, Nat.zero_add] at hge
  exact (hrequests.map _).sum_eq.trans_le hge

/-- One limit on all requests of a key, with windows from midnight to midnight. -/
def dailyConfig : Config where
  limits := [⟨"limit", "key", .global, "", .daily, "00:00", true⟩]
  nodup := List.nodup_singleton _
  periodStartAt _ _ now := now / 86400000 * 86400000

def dailyLimit : TokenLimit := ⟨"limit", "key", .global, "", .daily, "00:00", true⟩

def tenTokens : Request := ⟨"key", "openai", "gpt-5", 7, 3, 0, 1000⟩

/-- The row is there before the tokens are recorded. -/
def rowFirst : List Event := [.insertRow tenTokens, .recordTokenUsage 1001 tenTokens]

/-- A read of the empty counter, then the tokens are recorded before the row is there. -/
def recordFirst : List Event :=
  [.getCurrentWindowUsage dailyLimit 999 true, .recordTokenUsage 1000 tenTokens,
    .insertRow tenTokens, .getCurrentWindowUsage dailyLimit 1002 true]

theorem rowFirst_counts_twice : tenTokens.billable = 10 ∧
    windowRequests dailyConfig dailyLimit 0 rowFirst = [tenTokens] ∧
    (exec (step dailyConfig) .init rowFirst).map
      (fun s => getWindowUsage s.counters dailyLimit.id 0) = some 20 := by
  decide +kernel

theorem counter_covers_rowFirst : 10 ≤ getWindowUsage
    ((exec (step dailyConfig) .init rowFirst).getD .init).counters dailyLimit.id 0 :=
  counter_covers dailyConfig dailyLimit 0 rowFirst _ [tenTokens] List.mem_cons_self rfl rfl
    (by decide +kernel)

theorem counter_exact_iff_recordFirst : ∃ s,
    exec (step dailyConfig) .init recordFirst = some s ∧
      getWindowUsage s.counters dailyLimit.id 0 = ([tenTokens].map Request.billable).sum := by
  have hrun : exec (step dailyConfig) .init recordFirst =
      some ((exec (step dailyConfig) .init recordFirst).getD .init) := by
    rfl
  refine ⟨_, hrun, ?_⟩
  have hmeets : Trace.Meets (step dailyConfig) (SeedsNothing dailyConfig dailyLimit 0) .init
      recordFirst := by
    decide +kernel
  have hrequests : [tenTokens].Perm (windowRequests dailyConfig dailyLimit 0 recordFirst) := by
    decide +kernel
  exact (counter_exact_iff dailyConfig dailyLimit 0 recordFirst _ [tenTokens]
    List.mem_cons_self rfl hrun hrequests).2 hmeets

end OmniRoute.TokenLimits
