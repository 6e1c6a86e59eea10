import OmniRoute.LoginLockout.Policy

/-!
# When the lockout is exact

An ended lock is only cleared by a check: a failure before that counts attempts from before the end,
and leaves the ended lock behind, with which the next check forgets it. And the listing of the
locked identifiers caches those that are not cached without their attempts.

**Main result (`checkLockout_exact`).** In a run without such failures and listings, a check reports
an identifier as locked exactly in the locks that its failures started.
-/

namespace OmniRoute.LoginLockout

open List Option OrdMap Trace Function

variable {config : LockoutConfig}

/-! ## Stores -/

namespace Store

/-- The record of an identifier; without one there are no attempts. -/
def recordOf (st : Store) (identifier : String) : LockoutState :=
  (st.find identifier).getD ⟨[], none⟩

/-- The record of an identifier after a restart. -/
def storedOf (st : Store) (identifier : String) : LockoutState :=
  (st.db.get identifier).getD ⟨[], none⟩

variable (st : Store)

theorem getState_spec (identifier : String) :
    (st.getState identifier).2 = st.find identifier ∧ (st.getState identifier).1.db = st.db ∧
      ∀ other, (st.getState identifier).1.find other = st.find other := by
  rw [getState, find]
  cases hcache : st.cache.get identifier with
  | some state => exact ⟨rfl, rfl, fun _ => rfl⟩
  | none =>
    cases hdb : st.db.get identifier with
    | none => exact ⟨rfl, rfl, fun _ => rfl⟩
    | some fromDb =>
      refine ⟨rfl, rfl, fun other => ?_⟩
      dsimp only [find]
      rw [get_set]
      by_cases hother : other = identifier
      · rw [if_pos hother, hother, hcache, hdb]
        rfl
      · rw [if_neg hother]

theorem recordOf_persistState (identifier : String) (state : LockoutState)
    (other : String) : (st.persistState identifier state).recordOf other =
      if other = identifier then state else st.recordOf other := by
  rw [recordOf, find, persistState, get_set, get_set]
  by_cases hother : other = identifier
  · simp [hother]
  · simp only [if_neg hother]
    rfl

theorem storedOf_persistState (identifier : String) (state : LockoutState)
    (other : String) : (st.persistState identifier state).storedOf other =
      if other = identifier then state else st.storedOf other := by
  rw [storedOf, persistState, get_set]
  by_cases hother : other = identifier
  · simp [hother]
  · simp only [if_neg hother]
    rfl

theorem recordOf_recordSuccess (identifier other : String) :
    (st.recordSuccess identifier).recordOf other =
      if other = identifier then ⟨[], none⟩ else st.recordOf other := by
  rw [recordOf, find, recordSuccess, get_delete, get_delete]
  by_cases hother : other = identifier
  · simp [hother]
  · simp only [if_neg hother]
    rfl

theorem storedOf_recordSuccess (identifier other : String) :
    (st.recordSuccess identifier).storedOf other =
      if other = identifier then ⟨[], none⟩ else st.storedOf other := by
  rw [storedOf, recordSuccess, get_delete]
  by_cases hother : other = identifier
  · simp [hother]
  · simp only [if_neg hother]
    rfl

end Store

variable {now : ℕ}

theorem recent_recent {now' : ℕ} (h : now ≤ now') (attempts : List ℕ) :
    Store.recent config now' (Store.recent config now attempts) =
      Store.recent config now' attempts := by
  rw [Store.recent, Store.recent, List.filter_filter]
  refine filter_congr fun t _ => ?_
  rw [← Bool.decide_and]
  exact decide_eq_decide.2 ⟨And.left, fun ht => ⟨ht, h.trans_lt ht⟩⟩

theorem recent_append (now : ℕ) (attempts attempts' : List ℕ) :
    Store.recent config now (attempts ++ attempts') =
      Store.recent config now attempts ++ Store.recent config now attempts' :=
  filter_append ..

/-! ## Records and tallies -/

/-- From a time on, the record says what the tally says: the lock, and, while no ended lock is left
in the record, the failures that count. -/
structure Faithful (config : LockoutConfig) (clock : ℕ) (record : LockoutState) (tally : Tally) :
    Prop where
  locksPast : ∀ t ∈ tally.locks, t ≤ clock
  failuresPast : ∀ t ∈ tally.failures, t ≤ clock
  truthy : ∀ u, record.lockedUntil = some u → u ≠ 0
  locked : ∀ now, clock ≤ now →
    (tally.Locked config now ↔ ∃ u, record.lockedUntil = some u ∧ now < u)
  locks : record.lockedUntil ≠ none → tally.locks ≠ []
  attempts : 1 < config.maxAttempts → ∀ now, clock ≤ now →
    (∀ u, record.lockedUntil = some u → now < u) →
    Store.recent config now record.attempts =
      Store.recent config now (tally.expire config now).failures

theorem faithful_empty (clock : ℕ) : Faithful config clock ⟨[], none⟩ .empty where
  locksPast := fun _ hmem => absurd hmem not_mem_nil
  failuresPast := fun _ hmem => absurd hmem not_mem_nil
  truthy := by
    rintro u ⟨⟩
  locked := by
    intro now _
    refine iff_of_false ?_ ?_
    · rintro ⟨t, hmem, -⟩
      cases hmem
    · rintro ⟨u, hu, -⟩
      cases hu
  locks := fun h => absurd rfl h
  attempts := fun _ _ _ _ => rfl

namespace Faithful

variable {clock now : ℕ} {record : LockoutState} {tally : Tally}

section

variable (h : Faithful config clock record tally)
include h

theorem later (hnow : clock ≤ now) :
    Faithful config now record tally where
  locksPast t ht := (h.locksPast t ht).trans hnow
  failuresPast t ht := (h.failuresPast t ht).trans hnow
  truthy := h.truthy
  locked n hn := h.locked n (hnow.trans hn)
  locks := h.locks
  attempts hmax n hn := h.attempts hmax n (hnow.trans hn)

theorem lockEnd_eq : record.lockEnd = record.lockedUntil := by
  rw [LockoutState.lockEnd]
  cases hlock : record.lockedUntil with
  | none => rfl
  | some u => simpa using h.truthy u hlock

/-- An ended lock is cleared. -/
theorem cleared (hnow : clock ≤ now) {u : ℕ}
    (hlock : record.lockedUntil = some u) (hended : u ≤ now) :
    Faithful config now ⟨[], none⟩ tally := by
  have hunlocked : ∀ n, now ≤ n → ¬tally.Locked config n := by
    intro n hn hlocked
    obtain ⟨u', hu', hlt⟩ := (h.locked n (hnow.trans hn)).1 hlocked
    obtain rfl := some.inj (hlock.symm.trans hu')
    omega
  have hlocks : tally.locks ≠ [] := h.locks (by simp [hlock])
  refine ⟨(h.later hnow).locksPast, (h.later hnow).failuresPast, ?_, ?_, ?_, ?_⟩
  · rintro u ⟨⟩
  · intro n hn
    refine iff_of_false (hunlocked n hn) ?_
    rintro ⟨u, hu, -⟩
    cases hu
  · exact fun hne => absurd rfl hne
  · intro _ n hn _
    rw [Tally.expire, if_pos ⟨hlocks, hunlocked n hn⟩]
    rfl

/-- Attempts that have aged are dropped. -/
theorem pruned (hnow : clock ≤ now) :
    Faithful config now { record with attempts := Store.recent config now record.attempts }
      tally where
  locksPast := (h.later hnow).locksPast
  failuresPast := (h.later hnow).failuresPast
  truthy := h.truthy
  locked := (h.later hnow).locked
  locks := h.locks
  attempts := by
    intro hmax n hn hopen
    rw [recent_recent hn]
    exact h.attempts hmax n (hnow.trans hn) hopen

/-- Attempts that have aged are forgotten. -/
theorem forgotten (hnow : clock ≤ now)
    (haged : config.maxAttempts ≤ 1 ∨ Store.recent config now record.attempts = []) :
    Faithful config now { record with attempts := [] } tally where
  locksPast := (h.later hnow).locksPast
  failuresPast := (h.later hnow).failuresPast
  truthy := h.truthy
  locked := (h.later hnow).locked
  locks := h.locks
  attempts := by
    intro hmax n hn hopen
    have hrest : Store.recent config n record.attempts = [] := by
      rw [← recent_recent hn, haged.resolve_left (not_le.2 hmax)]
      rfl
    exact hrest.symm.trans (h.attempts hmax n (hnow.trans hn) hopen)

end

end Faithful

namespace Tally

variable {tally : Tally} {now n : ℕ}

theorem expire_self (h : tally.locks = [] ∨ tally.Locked config now) :
    tally.expire config now = tally := by
  rw [expire, if_neg]
  rintro ⟨hlocks, hunlocked⟩
  exact h.elim hlocks hunlocked

theorem expire_sub : (∀ t ∈ (tally.expire config now).locks, t ∈ tally.locks) ∧
    ∀ t ∈ (tally.expire config now).failures, t ∈ tally.failures := by
  rw [expire]
  split
  · exact ⟨fun _ hmem => absurd hmem not_mem_nil, fun _ hmem => absurd hmem not_mem_nil⟩
  · exact ⟨fun _ hmem => hmem, fun _ hmem => hmem⟩

/-- No lock goes on after it has ended. -/
theorem expire_locked (hpast : ∀ t ∈ tally.locks, t ≤ now) (hn : now ≤ n) :
    (tally.expire config now).Locked config n ↔ tally.Locked config n := by
  rw [expire]
  split
  · next hended =>
    refine iff_of_false ?_ ?_
    · rintro ⟨t, hmem, -⟩
      cases hmem
    · rintro ⟨t, hmem, -, hlt⟩
      exact hended.2 ⟨t, hmem, hpast t hmem, hn.trans_lt hlt⟩
  · exact Iff.rfl

end Tally

namespace Faithful

variable {clock now : ℕ} {record : LockoutState} {tally : Tally}

/-- A failure that finds no ended lock. -/
theorem fail (h : Faithful config clock record tally) (hclock : 0 < clock) (hnow : clock ≤ now)
    (hopen : config.maxAttempts ≤ 1 ∨ ∀ u, record.lockedUntil = some u → now < u) :
    Faithful config now
      (if config.maxAttempts ≤ (Store.recent config now record.attempts ++ [now]).length then
        ⟨Store.recent config now record.attempts ++ [now], some (now + config.lockoutDurationMs)⟩
      else { record with attempts := Store.recent config now record.attempts ++ [now] })
      (tally.fail config now) := by
  set expired := tally.expire config now with hexpired
  have hcounted : ∀ t ∈ expired.failures, t ≤ now := fun t ht =>
    (h.failuresPast t (Tally.expire_sub.2 t ht)).trans hnow
  have hlocks : ∀ t ∈ expired.locks, t ≤ now := fun t ht =>
    (h.locksPast t (Tally.expire_sub.1 t ht)).trans hnow
  have hbefore : (expired.failures.filter fun t =>
      now < t + config.attemptWindowMs ∧ t ≤ now) =
        Store.recent config now expired.failures := by
    refine filter_congr fun t ht => ?_
    simp [hcounted t ht]
  have hagree : 1 < config.maxAttempts → Store.recent config now record.attempts =
      Store.recent config now expired.failures := fun hmax =>
    h.attempts hmax now hnow (hopen.resolve_left (not_le.2 hmax))
  have hfailuresPast : ∀ t ∈ expired.failures ++ [now], t ≤ now := by
    intro t ht
    rcases mem_append.1 ht with ht | ht
    · exact hcounted t ht
    · exact (mem_singleton.1 ht).le
  have hattempts : 1 < config.maxAttempts → ∀ n, now ≤ n →
      Store.recent config n (Store.recent config now record.attempts ++ [now]) =
        Store.recent config n (expired.failures ++ [now]) := by
    intro hmax n hn
    rw [recent_append, recent_append, hagree hmax, recent_recent hn]
  rw [Tally.fail, ← hexpired, hbefore]
  by_cases hlock : config.maxAttempts ≤ (Store.recent config now record.attempts ++ [now]).length
  · have htally : config.maxAttempts ≤
        (Store.recent config now expired.failures).length + 1 := by
      by_cases hmax : 1 < config.maxAttempts
      · rw [hagree hmax] at hlock
        simpa using hlock
      · omega
    rw [if_pos hlock, if_pos htally]
    have hlocked : ∀ n, now ≤ n → n < now + config.lockoutDurationMs →
        Tally.Locked config ⟨expired.failures ++ [now],
          expired.locks ++ [now]⟩ n :=
      fun n hn hlt => ⟨now, mem_append_right _ mem_cons_self, hn, hlt⟩
    refine ⟨?_, hfailuresPast, ?_, ?_, ?_, ?_⟩
    · intro t ht
      rcases mem_append.1 ht with ht | ht
      · exact hlocks t ht
      · exact (mem_singleton.1 ht).le
    · rintro u ⟨⟩
      omega
    · intro n hn
      constructor
      · rintro ⟨t, ht, -, hlt⟩
        refine ⟨_, rfl, ?_⟩
        rcases mem_append.1 ht with ht | ht
        · have hle := hlocks t ht
          omega
        · rw [mem_singleton.1 ht] at hlt
          exact hlt
      · rintro ⟨u, ⟨⟩, hlt⟩
        exact hlocked n hn hlt
    · exact fun _ => append_ne_nil_of_right_ne_nil _ (cons_ne_nil _ _)
    · intro hmax n hn hlt
      rw [Tally.expire_self (Or.inr (hlocked n hn (hlt _ rfl)))]
      exact hattempts hmax n hn
  · have hmax : 1 < config.maxAttempts := by
      rw [length_append, length_singleton] at hlock
      omega
    have htally : ¬config.maxAttempts ≤
        (Store.recent config now expired.failures).length + 1 := by
      rw [hagree hmax] at hlock
      simpa using hlock
    rw [if_neg hlock, if_neg htally]
    have hunended := hopen.resolve_left (not_le.2 hmax)
    have hsame : ∀ n, now ≤ n → (Tally.Locked config ⟨expired.failures ++ [now],
        expired.locks⟩ n ↔ tally.Locked config n) := fun n hn =>
      Tally.expire_locked (h.later hnow).locksPast hn
    refine ⟨hlocks, hfailuresPast, h.truthy, ?_, ?_, ?_⟩
    · intro n hn
      rw [hsame n hn]
      exact h.locked n (hnow.trans hn)
    · intro hne
      obtain ⟨u, hu⟩ := ne_none_iff_exists'.1 hne
      have hlocked : tally.Locked config now := (h.locked now hnow).2 ⟨u, hu, hunended u hu⟩
      rw [hexpired, Tally.expire_self (Or.inr hlocked)]
      exact h.locks hne
    · intro _ n hn hlt
      rw [Tally.expire_self]
      · exact hattempts hmax n hn
      · rcases hu : record.lockedUntil with _ | u
        · -- without a lock in the record, the tally's has ended, or there was none
          refine Or.inl ?_
          have hunlocked : ¬tally.Locked config now := by
            rw [h.locked now hnow, hu]
            rintro ⟨u, ⟨⟩, -⟩
          show expired.locks = []
          rw [hexpired, Tally.expire]
          split
          · rfl
          · next hnot => exact not_not.1 fun hlocks => hnot ⟨hlocks, hunlocked⟩
        · exact Or.inr ((hsame n hn).2 ((h.locked n (hnow.trans hn)).2 ⟨u, hu, hlt u hu⟩))

end Faithful

/-! ## Runs -/

/-- The records of all identifiers, now and after a restart, say what the tallies say. -/
structure Kept (config : LockoutConfig) (s : State) : Prop where
  clock_pos : 0 < s.clock
  found : ∀ identifier,
    Faithful config s.clock (s.store.recordOf identifier) (s.tallies identifier)
  stored : ∀ identifier,
    Faithful config s.clock (s.store.storedOf identifier) (s.tallies identifier)

/-- No failure finds an ended lock, and no listing a locked identifier with recent attempts that is
not cached. -/
def Orderly (config : LockoutConfig) (s : State) : Event → Prop
  | .recordFailedAttempt identifier now => config.maxAttempts ≤ 1 ∨
    ∀ u ∈ (s.store.recordOf identifier).lockEnd, now < u
  | .getLockedIdentifiers now => config.maxAttempts ≤ 1 ∨
    ∀ entry ∈ s.store.loadAllLockedIdentifiers now, s.store.cache.get entry.1 = none →
      Store.recent config now (s.store.storedOf entry.1).attempts = []
  | _ => True

instance (config : LockoutConfig) (s : State) : ∀ e, Decidable (Orderly config s e)
  | .recordFailedAttempt _ _ => inferInstanceAs (Decidable (_ ∨ ∀ u ∈ Option.filter _ _, _))
  | .getLockedIdentifiers _ => inferInstanceAs (Decidable (_ ∨ ∀ entry ∈ _, _ → _))
  | .checkLockout .. | .recordSuccess _ | .forceUnlock _ | .restart => .isTrue trivial

theorem kept_start {clock : ℕ} (hclock : 0 < clock) : Kept config (.start clock) where
  clock_pos := hclock
  found := fun _ => faithful_empty clock
  stored := fun _ => faithful_empty clock

variable {tallies : String → Tally}

theorem Kept.later {st : Store} {clock : ℕ} (h : Kept config ⟨st, clock, tallies⟩)
    (hnow : clock ≤ now) : Kept config ⟨st, now, tallies⟩ where
  clock_pos := h.clock_pos.trans_le hnow
  found identifier := (h.found identifier).later hnow
  stored identifier := (h.stored identifier).later hnow

/-- A record is written. -/
theorem Kept.persist {st : Store} {clock : ℕ} (h : Kept config ⟨st, clock, tallies⟩)
    (hnow : clock ≤ now) (identifier : String) {state : LockoutState} {tally : Tally}
    (hstate : Faithful config now state tally) :
    Kept config ⟨st.persistState identifier state, now,
      Function.update tallies identifier tally⟩ := by
  refine ⟨h.clock_pos.trans_le hnow, fun other => ?_, fun other => ?_⟩
  · rw [Store.recordOf_persistState]
    dsimp only
    by_cases hother : other = identifier
    · rw [if_pos hother, hother, update_self]
      exact hstate
    · rw [if_neg hother, update_of_ne hother]
      exact (h.found other).later hnow
  · rw [Store.storedOf_persistState]
    dsimp only
    by_cases hother : other = identifier
    · rw [if_pos hother, hother, update_self]
      exact hstate
    · rw [if_neg hother, update_of_ne hother]
      exact (h.stored other).later hnow

theorem Kept.getState {st : Store} {clock : ℕ} (h : Kept config ⟨st, clock, tallies⟩)
    (identifier : String) : Kept config ⟨(st.getState identifier).1, clock, tallies⟩ := by
  obtain ⟨-, hdb, hfind⟩ := st.getState_spec identifier
  refine ⟨h.clock_pos, fun other => ?_, fun other => ?_⟩
  · rw [Store.recordOf, hfind]
    exact h.found other
  · rw [Store.storedOf, hdb]
    exact h.stored other

variable {s : State}

section

variable (h : Kept config s)
include h

section

variable (identifier : String)

/-- A check reports what the tally says. -/
theorem Kept.locked_iff (hnow : s.clock ≤ now) :
    (s.store.checkLockout config identifier now).2.locked = true ↔
      (s.tallies identifier).Locked config now := by
  have hfound := h.found identifier
  rw [hfound.locked now hnow, ← hfound.lockEnd_eq, Store.recordOf,
    ← (s.store.getState_spec identifier).1, Store.checkLockout]
  rcases s.store.getState identifier with ⟨st, _ | state⟩
  · simp [LockoutState.lockEnd]
  · dsimp only [getD_some]
    cases hlock : state.lockEnd with
    | none => simp
    | some u =>
      by_cases hlt : now < u
      · simp [hlt]
      · simp [hlt]

theorem Kept.check (hnow : s.clock ≤ now) :
    Kept config { s with store := (s.store.checkLockout config identifier now).1, clock := now } := by
  have hstate := h.getState identifier
  have hfound := h.found identifier
  rw [Store.recordOf, ← (s.store.getState_spec identifier).1] at hfound
  rw [Store.checkLockout]
  generalize s.store.getState identifier = got at hstate hfound
  obtain ⟨st, _ | state⟩ := got
  · exact hstate.later hnow
  · dsimp only [getD_some] at hstate hfound ⊢
    cases hlock : state.lockEnd with
    | none =>
      have hkept := hstate.persist hnow identifier (hfound.pruned hnow)
      rwa [update_eq_self] at hkept
    | some u =>
      dsimp only
      by_cases hlt : now < u
      · rw [if_pos hlt]
        exact hstate.later hnow
      · rw [if_neg hlt]
        rw [hfound.lockEnd_eq] at hlock
        have hkept := hstate.persist hnow identifier (hfound.cleared hnow hlock (not_lt.1 hlt))
        rwa [update_eq_self] at hkept

theorem Kept.fail (hnow : s.clock ≤ now)
    (hok : Orderly config s (.recordFailedAttempt identifier now)) :
    Kept config {
      store := (s.store.recordFailedAttempt config identifier now).1
      clock := now
      tallies := update s.tallies identifier ((s.tallies identifier).fail config now) } := by
  have hstate := h.getState identifier
  have hfound := h.found identifier
  have hfail := hfound.fail h.clock_pos hnow (hok.imp_right fun hopen u hu =>
    hopen u (hfound.lockEnd_eq.trans hu))
  rw [Store.recordOf, ← (s.store.getState_spec identifier).1] at hfail
  have hkept := hstate.persist hnow identifier hfail
  rw [Store.recordFailedAttempt]
  dsimp only
  split at hkept
  · next hlock =>
    rw [if_pos hlock]
    exact hkept
  · next hlock =>
    rw [if_neg hlock]
    exact hkept

theorem Kept.clear : Kept config (s.clear identifier) := by
  refine ⟨h.clock_pos, fun other => ?_, fun other => ?_⟩
  · rw [State.clear]
    dsimp only
    rw [Store.recordOf_recordSuccess]
    by_cases hother : other = identifier
    · rw [if_pos hother, hother, update_self]
      exact faithful_empty _
    · rw [if_neg hother, update_of_ne hother]
      exact h.found other
  · rw [State.clear]
    dsimp only
    rw [Store.storedOf_recordSuccess]
    by_cases hother : other = identifier
    · rw [if_pos hother, hother, update_self]
      exact faithful_empty _
    · rw [if_neg hother, update_of_ne hother]
      exact h.stored other

end

/-! ## Listings and restarts -/

omit h in
theorem mem_loadAllLockedIdentifiers {st : Store} {u : ℕ} {identifier : String}
    (h : (identifier, u) ∈ st.loadAllLockedIdentifiers now) :
    ∃ state, st.db.get identifier = some state ∧ state.lockedUntil = some u := by
  obtain ⟨⟨key, state⟩, hrow, heq⟩ := mem_filterMap.1 h
  dsimp only at heq
  split at heq
  · next u' hlock =>
    split at heq
    · obtain ⟨rfl, rfl⟩ := Prod.mk.inj (some.inj heq)
      exact ⟨state, get_eq_some.2 hrow, hlock⟩
    · cases heq
  · cases heq

omit h in
/-- A listing caches a record without its attempts, or leaves what is cached. -/
theorem get_cacheLocked (st : Store) (now : ℕ) (identifier : String) :
    (st.cacheLocked now).cache.get identifier = st.cache.get identifier ∨
      st.cache.get identifier = none ∧ ∃ u, (identifier, u) ∈ st.loadAllLockedIdentifiers now ∧
        (st.cacheLocked now).cache.get identifier = some ⟨[], some u⟩ := by
  rw [Store.cacheLocked]
  dsimp only
  generalize st.loadAllLockedIdentifiers now = rows
  generalize st.cache = cache
  induction rows generalizing cache with
  | nil => exact Or.inl rfl
  | cons row rows ih =>
    rw [foldl_cons]
    by_cases hrow : cache.get row.1 = none
    · rw [if_pos hrow]
      have hset := get_set cache row.1 identifier ⟨[], some row.2⟩
      rcases ih (cache.set row.1 ⟨[], some row.2⟩) with heq | ⟨hnone, u, hmem, heq⟩
      · rw [heq, hset]
        by_cases hkey : identifier = row.1
        · rw [if_pos hkey, hkey]
          exact Or.inr ⟨hrow, row.2, mem_cons_self, rfl⟩
        · rw [if_neg hkey]
          exact Or.inl rfl
      · rw [hset] at hnone
        split at hnone
        · cases hnone
        · exact Or.inr ⟨hnone, u, mem_cons_of_mem _ hmem, heq⟩
    · rw [if_neg hrow]
      rcases ih cache with heq | ⟨hnone, u, hmem, heq⟩
      · exact Or.inl heq
      · exact Or.inr ⟨hnone, u, mem_cons_of_mem _ hmem, heq⟩

theorem Kept.list (hnow : s.clock ≤ now) (hok : Orderly config s (.getLockedIdentifiers now)) :
    Kept config { s with store := (s.store.getLockedIdentifiers now).1, clock := now } := by
  refine ⟨h.clock_pos.trans_le hnow, fun identifier => ?_, fun identifier =>
    (h.stored identifier).later hnow⟩
  have hfound := h.found identifier
  dsimp only [Store.getLockedIdentifiers]
  rw [Store.recordOf, Store.find] at hfound ⊢
  rcases get_cacheLocked s.store now identifier with heq | ⟨hnone, u, hmem, heq⟩
  · rw [heq]
    exact hfound.later hnow
  · obtain ⟨state, hstate, hlock⟩ := mem_loadAllLockedIdentifiers hmem
    rw [hnone, hstate] at hfound
    have haged : config.maxAttempts ≤ 1 ∨ Store.recent config now state.attempts = [] := by
      refine hok.imp_right fun hrows => ?_
      have hrow := hrows _ hmem hnone
      rwa [Store.storedOf, hstate] at hrow
    rw [heq, ← hlock]
    exact hfound.forgotten hnow haged

theorem Kept.restart : Kept config { s with store := s.store.restart } := by
  refine ⟨h.clock_pos, fun identifier => ?_, h.stored⟩
  exact h.stored identifier

theorem step_kept {t : State} {e : Event} (hok : Orderly config s e)
    (hstep : step config s e = some t) : Kept config t := by
  cases e with
  | checkLockout identifier now =>
    rw [step] at hstep
    split at hstep
    · cases hstep
    next hnow =>
    cases hstep
    exact h.check identifier (not_lt.1 hnow)
  | recordFailedAttempt identifier now =>
    rw [step] at hstep
    split at hstep
    · cases hstep
    next hnow =>
    cases hstep
    exact h.fail identifier (not_lt.1 hnow) hok
  | recordSuccess identifier =>
    cases hstep
    exact h.clear identifier
  | forceUnlock identifier =>
    cases hstep
    exact h.clear identifier
  | getLockedIdentifiers now =>
    rw [step] at hstep
    split at hstep
    · cases hstep
    next hnow =>
    cases hstep
    exact h.list (not_lt.1 hnow) hok
  | restart =>
    cases hstep
    exact h.restart

end

/-- In a run where no failure finds an ended lock, and no listing a locked identifier that is not
cached and has recent attempts, a check reports an identifier as locked exactly in the locks that
its failures started. -/
theorem checkLockout_exact {clock : ℕ} (hclock : 0 < clock) {es : List Event}
    (horderly : Trace.Meets (step config) (Orderly config) (.start clock) es) {s : State}
    (hexec : exec (step config) (.start clock) es = some s) (identifier : String) {now : ℕ}
    (hnow : s.clock ≤ now) :
    (s.store.checkLockout config identifier now).2.locked = true ↔
      (s.tallies identifier).Locked config now :=
  (exec_invariant_of_meets (fun _ _ _ h hok hstep => step_kept h hok hstep)
    (kept_start hclock) horderly hexec).locked_iff identifier hnow

/-- Two failures in ten milliseconds lock for ten milliseconds. -/
def twoInTen : LockoutConfig := ⟨2, 10, 10⟩

/-- A lock that is checked after its end, and another that a failure starts after a restart. -/
def checkedLock : List Event :=
  [.recordFailedAttempt "ip" 1, .recordFailedAttempt "ip" 2, .checkLockout "ip" 12,
    .recordFailedAttempt "ip" 14, .getLockedIdentifiers 15, .restart, .recordFailedAttempt "ip" 16]

theorem checkLockout_exact_checkedLock :
    ∃ s, exec (step twoInTen) (.start 1) checkedLock = some s ∧
      (s.tallies "ip").Locked twoInTen 25 ∧
      (s.store.checkLockout twoInTen "ip" 25).2.locked = true := by
  obtain ⟨s, hexec⟩ := isSome_iff_exists.1
    (show (exec (step twoInTen) (.start 1) checkedLock).isSome = true by decide +kernel)
  have hrun : (exec (step twoInTen) (.start 1) checkedLock).map
      (fun s => (s.clock, decide ((s.tallies "ip").Locked twoInTen 25))) = some (16, true) := by
    decide +kernel
  rw [hexec] at hrun
  obtain ⟨hclock, hlocked⟩ := Prod.mk.inj (some.inj hrun)
  have horderly : Trace.Meets (step twoInTen) (Orderly twoInTen) (.start 1) checkedLock := by
    decide +kernel
  have hnow : s.clock ≤ 25 := by
    rw [hclock]
    decide
  refine ⟨s, hexec, of_decide_eq_true hlocked, ?_⟩
  exact (checkLockout_exact (by decide) horderly hexec "ip" hnow).2 (of_decide_eq_true hlocked)

/-- A failure finds the ended lock, and the check after it forgets both. -/
def endedLock : List Event :=
  [.recordFailedAttempt "ip" 1, .recordFailedAttempt "ip" 2, .recordFailedAttempt "ip" 12,
    .checkLockout "ip" 13, .recordFailedAttempt "ip" 14]

/-- The locked identifiers are listed after a restart. -/
def listedLock : List Event :=
  [.recordFailedAttempt "ip" 1, .recordFailedAttempt "ip" 2, .restart, .getLockedIdentifiers 3,
    .recordFailedAttempt "ip" 4]

theorem lock_forgotten :
    (∃ s, exec (step twoInTen) (.start 1) endedLock = some s ∧ s.clock ≤ 14 ∧
      (s.tallies "ip").Locked twoInTen 14 ∧
      (s.store.checkLockout twoInTen "ip" 14).2.locked = false) ∧
    ∃ s, exec (step twoInTen) (.start 1) listedLock = some s ∧ s.clock ≤ 13 ∧
      (s.tallies "ip").Locked twoInTen 13 ∧
      (s.store.checkLockout twoInTen "ip" 13).2.locked = false := by
  have hended : (exec (step twoInTen) (.start 1) endedLock).any (fun s =>
      s.clock ≤ 14 ∧ (s.tallies "ip").Locked twoInTen 14 ∧
        (s.store.checkLockout twoInTen "ip" 14).2.locked = false) = true := by decide +kernel
  have hlisted : (exec (step twoInTen) (.start 1) listedLock).any (fun s =>
      s.clock ≤ 13 ∧ (s.tallies "ip").Locked twoInTen 13 ∧
        (s.store.checkLockout twoInTen "ip" 13).2.locked = false) = true := by decide +kernel
  obtain ⟨s, hs, hfails⟩ := (Option.any_eq_true _ _).1 hended
  obtain ⟨t, ht, hfailt⟩ := (Option.any_eq_true _ _).1 hlisted
  exact ⟨⟨s, hs, of_decide_eq_true hfails⟩, t, ht, of_decide_eq_true hfailt⟩

end OmniRoute.LoginLockout
