import OmniRoute.ModelLockout.Lockouts

/-!
# Lockouts that hold and do not leak

A recorded failure locks its model, under every spelling of the provider, for the cooldown it
returns. What it is meant to lock besides the model depends on the reason: a failure with status
404, with reason `not_found` or with scope `exact` is about one model of a quota scope. The lock is
written without the status, so a 404 with another reason locks the whole scope.

**Main result (`lockouts_hold_iff`).** Lockouts of a failure hold and stay with its model exactly
when there is a model and no other model of its quota scope has the key of the lock.
-/

namespace OmniRoute.ModelLockout

open List

/-! ## Properties -/

/-- The times of a run that ends at `u` do not decrease. -/
def Clock (events : List Event) (u : ℚ) : Prop :=
  (events.map Prod.fst ++ [u]).Pairwise (· ≤ ·)

/-- A failure that is recorded at `t` between two runs. -/
def withFailure (before : List Event) (t : ℚ) (f : Failure) (after : List Event) : List Event :=
  before ++ (t, .recordModelLockoutFailure f) :: after

/-- In every run the model is locked, from the failure on until the end of the cooldown that is
returned, unless the key of the lock is cleared. -/
def HoldsCooldown (env : LockEnv) (f : Failure) : Prop :=
  ∀ (before after : List Event) (t u : ℚ) (provider : String),
    Clock (withFailure before t f after) u →
    env.resolveProviderId provider = env.resolveProviderId f.provider →
    u < t + (recordModelLockoutFailure env t f (run env {} before)).1.cooldownMs →
    (∀ e ∈ after, ¬e.2.Clears env (f.lockKey env)) →
    (isModelLocked env u provider f.connectionId f.model
      (run env {} (withFailure before t f after))).1 = true

/-- Another model of the quota scope. -/
def Sibling (env : LockEnv) (f : Failure) (other : String) : Prop :=
  other ≠ f.model ∧ quotaScope env (env.resolveProviderId f.provider) other =
    quotaScope env (env.resolveProviderId f.provider) f.model

/-- In every run the failure leaves other models of the scope as they are, at any later time. -/
def LocksNoSibling (env : LockEnv) (f : Failure) : Prop :=
  ∀ (before : List Event) (t u : ℚ) (provider other : String),
    Clock (withFailure before t f []) u →
    env.resolveProviderId provider = env.resolveProviderId f.provider → Sibling env f other →
    (isModelLocked env u provider f.connectionId other
      (run env {} (withFailure before t f []))).1 = true →
    (isModelLocked env u provider f.connectionId other (run env {} before)).1 = true

/-- The failures that are about one model. -/
def Failure.Narrow (f : Failure) : Prop :=
  f.status = 404 ∨ f.reason = "not_found" ∨ f.scope = some .exact

/-- The other model does not have the key of the lock: it differs from the model in more than case
and surrounding space, and neither of them is named like a key of the other. A 404 with another
reason than `not_found` is locked under the scope itself. -/
def Failure.KeepsApart (env : LockEnv) (f : Failure) (other : String) : Prop :=
  if f.scope = some .exact then
    normalizeModelId env other ≠ normalizeModelId env f.model ∧
      other ≠ "exact:" ++ normalizeModelId env f.model
  else if f.reason = "not_found" then
    f.model ≠ quotaScope env (env.resolveProviderId f.provider) f.model ∧
      f.model ≠ "exact:" ++ normalizeModelId env other
  else f.status ≠ 404

section Holding

variable {env : LockEnv} {f : Failure} {other provider : String} {u t : ℚ} {s : State}

theorem getModelLockKeys_alias
    (h : env.resolveProviderId provider = env.resolveProviderId f.provider)
    (connectionId model : String) :
    getModelLockKeys env provider connectionId model =
      getModelLockKeys env f.provider connectionId model := by
  simp only [getModelLockKeys, getModelLockKey, h]

/-- The lock of a failure is written under a key of its model. -/
theorem lockKey_mem_keys :
    f.lockKey env ∈ getModelLockKeys env f.provider f.connectionId f.model := by
  rw [mem_getModelLockKeys, Failure.lockKey]
  by_cases hexact : f.scope = some .exact
  · rw [if_pos hexact]
    exact .inr (.inr rfl)
  · rw [if_neg hexact, getModelLockKey]
    by_cases hreason : f.reason = "not_found"
    · simp [hreason]
    · simp [hreason]

theorem lockKey_mem_keys_sibling (hnarrow : f.Narrow) (hother : Sibling env f other) :
    f.lockKey env ∈ getModelLockKeys env f.provider f.connectionId other ↔
      ¬f.KeepsApart env other := by
  obtain ⟨hne, hscope⟩ := hother
  rw [Failure.lockKey, Failure.KeepsApart]
  by_cases hexact : f.scope = some .exact
  · rw [if_pos hexact, if_pos hexact, exactKey_mem_keys, not_and_or, not_ne_iff, not_ne_iff]
  · rw [if_neg hexact, if_neg hexact]
    by_cases hreason : f.reason = "not_found"
    · have hkey : getModelLockKey env f.provider f.connectionId f.model (some f.reason) none =
          lockKey (env.resolveProviderId f.provider) f.connectionId f.model := by
        simp [getModelLockKey, hreason]
      rw [hkey, if_pos hreason, modelKey_mem_keys hne, hscope, not_and_or, not_ne_iff, not_ne_iff]
    · have hkey : getModelLockKey env f.provider f.connectionId f.model (some f.reason) none =
          lockKey (env.resolveProviderId f.provider) f.connectionId
            (quotaScope env (env.resolveProviderId f.provider) f.model) := by
        simp [getModelLockKey, hreason]
      have hstatus : f.status = 404 :=
        hnarrow.resolve_right (not_or.2 ⟨hreason, hexact⟩)
      rw [hkey, if_neg hreason]
      exact iff_of_true (scopeKey_mem_keys hscope) fun h => h hstatus

theorem run_withFailure (before : List Event) (t : ℚ) (f : Failure) (after : List Event) :
    run env {} (withFailure before t f after) =
      run env (recordModelLockoutFailure env t f (run env {} before)).2 after := by
  rw [run, withFailure, foldl_append, foldl_cons]
  rfl

theorem clock_after {before after : List Event} (h : Clock (withFailure before t f after) u) :
    t ≤ u ∧ ∀ e ∈ after, e.1 ≤ u := by
  rw [Clock, pairwise_append] at h
  have hall : ∀ e ∈ withFailure before t f after, e.1 ≤ u := fun e he =>
    h.2.2 e.1 (mem_map_of_mem he) u (mem_singleton_self u)
  exact ⟨hall _ (mem_append_right _ mem_cons_self),
    fun e he => hall e (mem_append_right _ (.tail _ he))⟩

theorem clock_start (f : Failure) : Clock (withFailure [] 0 f []) 0 := by
  rw [Clock]
  exact pairwise_pair.2 (le_refl 0)

/-- With a model the cooldown is held. -/
theorem holdsCooldown (hmodel : f.model ≠ "") : HoldsCooldown env f := by
  intro before after t u provider hclock halias hu hclear
  obtain ⟨htu, hafter⟩ := clock_after hclock
  rw [run_withFailure]
  -- The lock holds until the end of the cooldown, and the run ends before.
  have hlocked : LockedAt (recordModelLockoutFailure env t f (run env {} before)).2 (f.lockKey env)
      (t + (recordModelLockoutFailure env t f (run env {} before)).1.cooldownMs) :=
    (lockedAt_recordFailure hmodel (htu.trans hu.le)).2 (.inr ⟨rfl, le_refl _⟩)
  obtain ⟨entry, hget, huntil⟩ := lockedAt_run (fun e he => (hafter e he).trans_lt hu) hclear hlocked
  rw [isModelLocked_iff hmodel, getModelLockKeys_alias halias]
  exact ⟨_, lockKey_mem_keys, entry, hget, hu.le.trans huntil⟩

theorem not_holdsCooldown (hmodel : f.model = "") : ¬HoldsCooldown env f := by
  intro h
  have hpos := recordModelLockoutFailure_pos env 0 f {}
  have hlocked := h [] [] 0 0 f.provider (clock_start f) rfl (by simpa [run] using hpos)
    (fun e he => by cases he)
  rw [isModelLocked, if_pos hmodel] at hlocked
  cases hlocked

/-- A failure locks no sibling exactly when no sibling has the key of the lock. -/
theorem locksNoSibling_iff (hmodel : f.model ≠ "") (hnarrow : f.Narrow) :
    LocksNoSibling env f ↔
      ∀ other, other ≠ "" → Sibling env f other → f.KeepsApart env other := by
  constructor
  · intro h other hne hother
    by_contra hshared
    have hkey := (lockKey_mem_keys_sibling hnarrow hother).2 hshared
    have hpos := recordModelLockoutFailure_pos env 0 f {}
    have hlocked := h [] 0 0 f.provider other (clock_start f) rfl hother (by
      rw [isModelLocked_iff hne, run_withFailure]
      refine ⟨_, hkey, (lockedAt_recordFailure hmodel (le_refl 0)).2 (.inr ⟨rfl, ?_⟩)⟩
      rw [zero_add]
      exact hpos.le)
    rw [isModelLocked_iff hne] at hlocked
    obtain ⟨k, -, entry, hget, -⟩ := hlocked
    cases hget
  · intro h before t u provider other hclock halias hother hlocked
    by_cases hne : other = ""
    · rw [isModelLocked, if_pos hne] at hlocked
      cases hlocked
    rw [isModelLocked_iff hne, getModelLockKeys_alias halias] at hlocked ⊢
    rw [run_withFailure] at hlocked
    obtain ⟨k, hk, hat⟩ := hlocked
    rcases (lockedAt_recordFailure hmodel (clock_after hclock).1).1 hat with hold | ⟨rfl, -⟩
    · exact ⟨k, hk, hold⟩
    · exact absurd (h other hne hother) ((lockKey_mem_keys_sibling hnarrow hother).1 hk)

end Holding

/-- Lockouts hold, and those about one model stay with it, exactly when there is a model and no
other one of its quota scope has the key of the lock. -/
theorem lockouts_hold_iff (env : LockEnv) (f : Failure) :
    (HoldsCooldown env f ∧ (f.Narrow → LocksNoSibling env f)) ↔
      f.model ≠ "" ∧
        (f.Narrow → ∀ other, other ≠ "" → Sibling env f other → f.KeepsApart env other) := by
  by_cases hmodel : f.model = ""
  · exact iff_of_false (fun h => not_holdsCooldown hmodel h.1) fun h => h.1 hmodel
  · refine and_congr (iff_of_true (holdsCooldown hmodel) hmodel) ?_
    exact forall_congr' fun hnarrow => locksNoSibling_iff hmodel hnarrow

/-- Providers and letters as they are. -/
def plainEnv : LockEnv where
  resolveProviderId := fun provider => if provider = "cx" then "codex" else provider
  toLowerCase := String.toLower
  msUntilTomorrow := fun _ => 3600000

/-- A model that the provider does not know, with a reason of the caller's own. -/
def missingModel : Failure where
  provider := "cx"
  connectionId := "c1"
  model := "gpt-5-missing"
  reason := "unknown"
  status := 404
  fallbackCooldownMs := some 60000

theorem missingModel_locks_sibling : Sibling plainEnv missingModel "gpt-5-codex" ∧
    ¬LocksNoSibling plainEnv missingModel := by
  have hsibling : Sibling plainEnv missingModel "gpt-5-codex" :=
    ⟨by decide +kernel, by decide +kernel⟩
  refine ⟨hsibling, fun h => ?_⟩
  have hlocked := h [] 0 0 "codex" "gpt-5-codex" (clock_start missingModel) (by decide +kernel)
    hsibling (by decide +kernel)
  exact absurd hlocked (by decide +kernel)

end OmniRoute.ModelLockout
