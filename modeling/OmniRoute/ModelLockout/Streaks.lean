import OmniRoute.ModelLockout.Lockouts

/-!
# Consecutive failures

The count that a failure of a model returns is meant to be the length of its streak: one more than
what the decays since have left of the previous count, if that failure is no older than its window
and its cooldown (`streakStep`). The code keeps a count for each of the three keys of a model, and a
decay looks up one of them, the key of the quota scope.

**Main result (`countsStreak_of_keyed`).** In every run on one model the counts are those of the
streak, if no failure and no decay meets a streak that is kept under another key and no empty model
is cleared. The invariant (`Tracks`): what is kept under the key of the last failure is the streak,
and what is kept under other keys counts for nothing any more.
-/

namespace OmniRoute.ModelLockout

open List OrdMap

/-! ## The streak -/

/-- The last failure of a model, with what its count has come to. -/
abbrev Streak := Option ModelFailureState

def streakStep (env : LockEnv) (now : ℚ) (streak : Streak) : Op → Streak
  | .recordModelLockoutFailure f =>
    some
      { failureCount := nextFailureCount now streak
        lastFailureAt := now
        resetAfterMs := getFailureWindowMs f.profile
        lastCooldownMs := lockoutCooldown env now f (nextFailureCount now streak) }
  | .decayModelFailureCount _ _ _ =>
    streak.map fun last => { last with failureCount := last.failureCount / 2 }
  | .clearModelLock _ _ _ => none
  | _ => streak

def streakAfter (env : LockEnv) (streak : Streak) (events : List Event) : Streak :=
  events.foldl (fun streak e => streakStep env e.1 streak e.2) streak

/-- The operation is about one model of a connection, under any name of the provider. -/
def Op.On (env : LockEnv) (provider connectionId model : String) : Op → Prop
  | .recordModelLockoutFailure f => env.resolveProviderId f.provider = env.resolveProviderId provider ∧
      f.connectionId = connectionId ∧ f.model = model
  | .lockModel p c m _ _ _ | .lockExactModel p c m _ _ _ | .decayModelFailureCount p c m
  | .clearModelLock p c m | .isModelLocked p c m =>
    env.resolveProviderId p = env.resolveProviderId provider ∧ c = connectionId ∧ m = model
  | .periodicCleanup | .evictLockoutOverflow => True

/-- A run on one model, with a clock that does not go back. -/
structure OneModel (env : LockEnv) (provider connectionId model : String) (events : List Event) :
    Prop where
  on : ∀ e ∈ events, e.2.On env provider connectionId model
  clock : (events.map Prod.fst).Pairwise (· ≤ ·)

/-- Every failure of a run returns the length of its streak. -/
def CountsStreak (env : LockEnv) (events : List Event) : Prop :=
  ∀ before t f after, events = before ++ (t, .recordModelLockoutFailure f) :: after →
    (recordModelLockoutFailure env t f (run env {} before)).1.failureCount =
      nextFailureCount t (streakAfter env none before)

/-! ## Where the streak is kept -/

/-- The key that the operation counts under is that of the streak, or there is no streak to count
on. -/
def Op.Meets (env : LockEnv) (now : ℚ) (key : String) (streak : Streak) : Op → Prop
  | .recordModelLockoutFailure f => f.failureKey env = key ∨ nextFailureCount now streak = 1
  | .decayModelFailureCount provider connectionId model =>
    getModelLockKey env provider connectionId model none none = key ∨
      nextFailureCount now streak = 1
  | .clearModelLock _ _ model => model ≠ ""
  | _ => True

/-- The key of the last failure. -/
def Op.keyAfter (env : LockEnv) (key : String) : Op → String
  | .recordModelLockoutFailure f => f.failureKey env
  | _ => key

/-- Every operation of a run meets the streak where it is kept. -/
def Keyed (env : LockEnv) : String → Streak → List Event → Prop
  | _, _, [] => True
  | key, streak, (now, op) :: events => op.Meets env now key streak ∧
      Keyed env (op.keyAfter env key) (streakStep env now streak op) events

/-! ## Counts that count for nothing -/

/-- From a time on the next failure is the first. -/
def Spent (now : ℚ) (last : Option ModelFailureState) : Prop :=
  ∀ last' ∈ last, last'.resetAfterMs + last'.lastCooldownMs < now - last'.lastFailureAt ∨
    last'.failureCount = 0

/-- The same from a time on. -/
def Alike (now : ℚ) (a b : Option ModelFailureState) : Prop :=
  a = b ∨ (Spent now a ∧ Spent now b)

section Counts

variable {now t : ℚ} {a b c : Option ModelFailureState}

theorem spent_none : Spent now none := nofun

theorem spent_iff : Spent now a ↔ nextFailureCount now a = 1 := by
  cases a with
  | none => exact iff_of_true spent_none rfl
  | some last =>
    have hone : Spent now (some last) ↔
        last.resetAfterMs + last.lastCooldownMs < now - last.lastFailureAt ∨
          last.failureCount = 0 :=
      ⟨fun h => h last rfl, fun h last' hl => Option.some.inj hl ▸ h⟩
    rw [hone, nextFailureCount]
    by_cases hwindow : now - last.lastFailureAt ≤ last.resetAfterMs + last.lastCooldownMs
    · simp only [if_pos hwindow, or_iff_right (not_lt.2 hwindow)]
      omega
    · simp only [if_neg hwindow, iff_true]
      exact .inl (not_le.1 hwindow)

theorem Spent.mono (h : Spent now a) (ht : now ≤ t) : Spent t a :=
  fun last hlast => (h last hlast).imp_left fun hwindow =>
    hwindow.trans_le (sub_le_sub_right ht _)

theorem Alike.mono (h : Alike now a b) (ht : now ≤ t) : Alike t a b :=
  h.imp_right fun h => ⟨h.1.mono ht, h.2.mono ht⟩

theorem Alike.trans (h : Alike now a b) (h' : Alike now b c) : Alike now a c := by
  rcases h with rfl | ⟨ha, hb⟩
  · exact h'
  · rcases h' with rfl | ⟨-, hc⟩
    · exact .inr ⟨ha, hb⟩
    · exact .inr ⟨ha, hc⟩

theorem Alike.spent (h : Alike now a b) (ha : Spent now a) : Spent now b := by
  rcases h with rfl | ⟨-, hb⟩
  · exact ha
  · exact hb

theorem Alike.nextFailureCount_eq (h : Alike now a b) :
    nextFailureCount now a = nextFailureCount now b := by
  rcases h with rfl | ⟨ha, hb⟩
  · rfl
  · rw [spent_iff.1 ha, spent_iff.1 hb]

theorem Spent.decay (h : Spent now a) :
    Spent now (a.map fun last => { last with failureCount := last.failureCount / 2 }) := by
  intro last hlast
  obtain ⟨last', rfl, rfl⟩ := Option.map_eq_some_iff.1 hlast
  exact (h last' rfl).imp_right fun hzero => by rw [hzero]

end Counts

/-! ## What is kept under other keys -/

section Tracking

variable {env : LockEnv} {now t : ℚ} {s : State} {key : String} {streak : Streak}

/-- Operations that leave every count as it is, or drop one that counts for nothing. -/
def Fades (now : ℚ) (s s' : State) : Prop :=
  ∀ k, Alike now (s.modelFailureState.get k) (s'.modelFailureState.get k)

theorem Fades.refl (now : ℚ) (s : State) : Fades now s s := fun _ => .inl rfl

theorem Fades.trans {s₁ s₂ s₃ : State} (h : Fades now s₁ s₂) (h' : Fades now s₂ s₃) :
    Fades now s₁ s₃ := fun k => (h k).trans (h' k)

theorem fades_cleanupModelLockKey (now : ℚ) (key : String) (s : State) :
    Fades now s (cleanupModelLockKey now key s) := by
  intro k
  show Alike now _ ((cleanupFailure _ _ _ _).get k)
  unfold cleanupFailure
  cases hget : s.modelFailureState.get key with
  | none => exact .inl rfl
  | some failure =>
    dsimp only
    split
    · exact .inl rfl
    · next hwindow =>
      split
      · exact .inl rfl
      · by_cases hk : k = key
        · subst hk
          refine .inr ⟨?_, ?_⟩
          · intro last hlast
            rw [hget] at hlast
            cases hlast
            exact .inl (not_le.1 hwindow)
          · rw [get_delete_self]
            exact spent_none
        · rw [get_delete_ne _ hk]
          exact .inl rfl

theorem fades_cleanupKeys (now : ℚ) (keys : List String) (s : State) :
    Fades now s (cleanupKeys now keys s) := by
  induction keys generalizing s with
  | nil => exact .refl now s
  | cons key keys ih => exact (fades_cleanupModelLockKey now key s).trans (ih _)

theorem fades_lockWithKey (key : String) (now : ℚ) (reason : String) (cooldownMs : ℚ)
    (metadata : LockMetadata) (s : State) :
    Fades now s (lockWithKey key now reason cooldownMs metadata s) := by
  unfold lockWithKey
  dsimp only
  split
  · exact fades_cleanupModelLockKey now key s
  · exact fades_cleanupModelLockKey now key s

theorem fades_lockModel (now : ℚ) (provider connectionId model reason : String) (cooldownMs : ℚ)
    (metadata : LockMetadata) (s : State) :
    Fades now s (lockModel env now provider connectionId model reason cooldownMs metadata s) := by
  unfold lockModel
  split
  · exact .refl now s
  · exact fades_lockWithKey _ _ _ _ _ s

theorem fades_lockExactModel (now : ℚ) (provider connectionId model reason : String)
    (cooldownMs : ℚ) (metadata : LockMetadata) (s : State) :
    Fades now s
      (lockExactModel env now provider connectionId model reason cooldownMs metadata s) := by
  unfold lockExactModel
  split
  · exact .refl now s
  · exact fades_lockWithKey _ _ _ _ _ s

theorem fades_isAnyKeyLocked (now : ℚ) (keys : List String) (s : State) :
    Fades now s (isAnyKeyLocked now keys s).2 := by
  induction keys generalizing s with
  | nil => exact .refl now s
  | cons key keys ih =>
    rw [isAnyKeyLocked]
    split
    · exact fades_cleanupModelLockKey now key s
    · exact (fades_cleanupModelLockKey now key s).trans (ih _)

/-! ## The keys of a run -/

/-- The keys of a model. -/
def modelKeys (env : LockEnv) (provider connectionId model : String) : List String :=
  [getModelLockKey env provider connectionId model none none,
    getModelLockKey env provider connectionId model (some "not_found") (some 404),
    buildExactModelLockKey env (env.resolveProviderId provider) connectionId model]

/-- Nothing is kept under other keys. -/
def Within (keys : List String) (s : State) : Prop :=
  ∀ k, k ∉ keys → s.modelLockouts.get k = none ∧ s.modelFailureState.get k = none

theorem getModelLockKey_mem (env : LockEnv) (provider connectionId model : String)
    (reason : Option String) (status : Option ℕ) :
    getModelLockKey env provider connectionId model reason status ∈
      modelKeys env provider connectionId model := by
  by_cases h : reason = some "not_found" ∨ status = some 404
  · refine mem_cons_of_mem _ (mem_cons.2 (.inl ?_))
    rw [getModelLockKey, if_pos h, getModelLockKey, if_pos (.inl rfl)]
  · refine mem_cons.2 (.inl ?_)
    rw [getModelLockKey, if_neg h, getModelLockKey, if_neg (by rintro (h | h) <;> cases h)]

variable {provider : String}

theorem modelKeys_alias {provider' : String} (connectionId model : String)
    (h : env.resolveProviderId provider = env.resolveProviderId provider') :
    modelKeys env provider connectionId model = modelKeys env provider' connectionId model := by
  simp only [modelKeys, getModelLockKey, h]

theorem failureKey_mem (f : Failure) :
    f.failureKey env ∈ modelKeys env f.provider f.connectionId f.model := by
  unfold Failure.failureKey
  split
  · exact mem_cons_of_mem _ (mem_cons_of_mem _ mem_cons_self)
  · exact getModelLockKey_mem env _ _ _ _ _

section Keys

variable {keys : List String}

theorem within_cleanup (h : Within keys s) : Within keys (cleanupModelLockKey now key s) := by
  intro k hk
  obtain ⟨hlock, hfailure⟩ := h k hk
  have hdelete : ∀ {ν : Type} (m : OrdMap String ν), m.get k = none → (m.delete key).get k = none := by
    intro ν m hm
    rw [get_delete]
    split
    · rfl
    · exact hm
  refine ⟨?_, ?_⟩
  · show (cleanupLock _ _ _).get k = none
    unfold cleanupLock
    split
    · split
      · exact hdelete _ hlock
      · exact hlock
    · exact hlock
  · show (cleanupFailure _ _ _ _).get k = none
    unfold cleanupFailure
    split
    · exact hfailure
    · split
      · exact hfailure
      · split
        · exact hfailure
        · exact hdelete _ hfailure

variable {ks : List String}

theorem within_cleanupKeys (h : Within keys s) : Within keys (cleanupKeys now ks s) := by
  induction ks generalizing s with
  | nil => exact h
  | cons key ks ih => exact ih (within_cleanup h)

theorem within_lockWithKey {reason : String} {cooldownMs : ℚ} {metadata : LockMetadata}
    (hkey : key ∈ keys) (h : Within keys s) :
    Within keys (lockWithKey key now reason cooldownMs metadata s) := by
  have hclean : Within keys (cleanupModelLockKey now key s) := within_cleanup h
  unfold lockWithKey
  dsimp only
  split
  · intro k hk
    obtain ⟨hlock, hfailure⟩ := hclean k hk
    have hne : k ≠ key := fun heq => hk (by rw [heq]; exact hkey)
    exact ⟨(OrdMap.get_set_ne _ hne _).trans hlock, hfailure⟩
  · exact hclean

theorem within_isAnyKeyLocked (h : Within keys s) : Within keys (isAnyKeyLocked now ks s).2 := by
  induction ks generalizing s with
  | nil => exact h
  | cons key ks ih =>
    rw [isAnyKeyLocked]
    split
    · exact within_cleanup h
    · exact ih (within_cleanup h)

theorem within_set {failure : ModelFailureState} (hkey : key ∈ keys) (h : Within keys s) :
    Within keys { s with modelFailureState := s.modelFailureState.set key failure } := by
  intro k hk
  obtain ⟨hlock, hfailure⟩ := h k hk
  have hne : k ≠ key := fun heq => hk (by rw [heq]; exact hkey)
  exact ⟨hlock, (OrdMap.get_set_ne _ hne _).trans hfailure⟩

theorem size_le_of_within {ν : Type} {m : OrdMap String ν} (h : ∀ k, k ∉ keys → m.get k = none) :
    m.size ≤ keys.length := by
  have hsub : m.keys ⊆ keys := by
    intro k hk
    by_contra hnot
    exact get_eq_none.1 (h k hnot) hk
  have hle := (m.nodup.subperm hsub).length_le
  rwa [length_map] at hle

/-- With few keys nothing is evicted. -/
theorem evict_of_within (now : ℚ) (h : Within keys s) (hlen : keys.length ≤ modelLockoutEvictionCap) :
    evictLockoutOverflow now s = s := by
  have hlocks := size_le_of_within fun k hk => (h k hk).1
  have hfailures := size_le_of_within fun k hk => (h k hk).2
  rw [evictLockoutOverflow, evictLocks, if_neg (not_lt.2 (hlocks.trans hlen)), evictFailures,
    if_neg (not_lt.2 (hfailures.trans hlen))]

theorem clearMultiKeyLock_get {k : String} (hk : k ∈ ks) :
    (clearMultiKeyLock ks s).modelFailureState.get k = none := by
  have hgone : ∀ (ks : List String) (s : State), s.modelFailureState.get k = none →
      (clearMultiKeyLock ks s).modelFailureState.get k = none := by
    intro ks
    induction ks with
    | nil => exact fun s h => h
    | cons key ks ih =>
      intro s h
      refine ih _ ?_
      show (OrdMap.delete _ _).get k = none
      rw [get_delete]
      split
      · rfl
      · exact h
  induction ks generalizing s with
  | nil => cases hk
  | cons key ks ih =>
    rcases mem_cons.1 hk with rfl | hk
    · refine hgone ks _ ?_
      exact get_delete_self _ _
    · exact ih hk

theorem within_clear (h : Within keys s) : Within keys (clearMultiKeyLock ks s) := by
  induction ks generalizing s with
  | nil => exact h
  | cons key ks ih =>
    refine ih fun k hk => ?_
    obtain ⟨hlock, hfailure⟩ := h k hk
    refine ⟨?_, ?_⟩
    · show (OrdMap.delete _ _).get k = none
      rw [get_delete]
      split
      · rfl
      · exact hlock
    · show (OrdMap.delete _ _).get k = none
      rw [get_delete]
      split
      · rfl
      · exact hfailure

end Keys

/-! ## One operation -/

/-- What is kept under the key of the last failure is the streak, and what is kept under other keys
counts for nothing. -/
structure Tracks (keys : List String) (now : ℚ) (key : String) (streak : Streak) (s : State) :
    Prop where
  within : Within keys s
  kept : Alike now streak (s.modelFailureState.get key)
  others : ∀ k, k ≠ key → Spent now (s.modelFailureState.get k)

variable {keys : List String}

theorem Tracks.fade {s' : State} (h : Tracks keys now key streak s) (ht : now ≤ t)
    (hfades : Fades t s s') (hwithin : Within keys s') : Tracks keys t key streak s' :=
  ⟨hwithin, (h.kept.mono ht).trans (hfades key),
    fun k hk => (hfades k).spent ((h.others k hk).mono ht)⟩

/-- Without a streak nothing counts under any key. -/
theorem Tracks.spent (h : Tracks keys now key streak s) (hspent : Spent now streak) (k : String) :
    Spent now (s.modelFailureState.get k) := by
  by_cases hk : k = key
  · rw [hk]
    exact h.kept.spent hspent
  · exact h.others k hk

/-- A failure is counted on the streak. -/
theorem Tracks.counts {f : Failure} (h : Tracks keys t key streak s)
    (hmeets : f.failureKey env = key ∨ nextFailureCount t streak = 1) :
    nextFailureCount t ((cleanupModelLockKey t (f.failureKey env) s).modelFailureState.get
      (f.failureKey env)) = nextFailureCount t streak := by
  have hfades := fades_cleanupModelLockKey t (f.failureKey env) s
  rw [← (hfades (f.failureKey env)).nextFailureCount_eq]
  rcases hmeets with hkey | hone
  · rw [hkey]
    exact h.kept.nextFailureCount_eq.symm
  · rw [hone]
    exact spent_iff.1 (h.spent (spent_iff.2 hone) _)

theorem Tracks.recordFailure {f : Failure} (h : Tracks keys t key streak s)
    (hkeys : keys = modelKeys env f.provider f.connectionId f.model)
    (hmeets : f.failureKey env = key ∨ nextFailureCount t streak = 1) :
    Tracks keys t (f.failureKey env) (streakStep env t streak (.recordModelLockoutFailure f))
      (recordModelLockoutFailure env t f s).2 := by
  have hmem : f.failureKey env ∈ keys := hkeys ▸ failureKey_mem f
  have hcounts := h.counts hmeets
  have hfades := fades_cleanupModelLockKey t (f.failureKey env) s
  set cleaned := cleanupModelLockKey t (f.failureKey env) s
  have hwithin : Within keys cleaned := within_cleanup h.within
  -- the count is set, then the lock is written
  have hset : Tracks keys t (f.failureKey env)
      (streakStep env t streak (.recordModelLockoutFailure f))
      { cleaned with
        modelFailureState := cleaned.modelFailureState.set (f.failureKey env)
            { failureCount := nextFailureCount t (cleaned.modelFailureState.get (f.failureKey env))
              lastFailureAt := t
              resetAfterMs := getFailureWindowMs f.profile
              lastCooldownMs := lockoutCooldown env t f (nextFailureCount t
                (cleaned.modelFailureState.get (f.failureKey env))) } } := by
    refine ⟨within_set hmem hwithin, ?_, fun k hk => ?_⟩
    · refine .inl ?_
      show _ = (OrdMap.set _ _ _).get _
      rw [OrdMap.get_set_self, hcounts]
      rfl
    · show Spent t ((OrdMap.set _ _ _).get k)
      rw [OrdMap.get_set_ne _ hk]
      refine (hfades k).spent ?_
      rcases hmeets with hkey | hone
      · exact h.others k (hkey ▸ hk)
      · exact h.spent (spent_iff.2 hone) k
  refine hset.fade (le_refl t) ?_ ?_
  · show Fades t _ ((if f.scope = some .exact then lockExactModel env t else lockModel env t)
      f.provider f.connectionId f.model f.reason _ _ _)
    split
    · exact fades_lockExactModel t _ _ _ _ _ _ _
    · exact fades_lockModel t _ _ _ _ _ _ _
  · show Within keys ((if f.scope = some .exact then lockExactModel env t else lockModel env t)
      f.provider f.connectionId f.model f.reason _ _ _)
    split
    · unfold lockExactModel
      split
      · exact hset.within
      · refine within_lockWithKey ?_ hset.within
        rw [hkeys]
        exact mem_cons_of_mem _ (mem_cons_of_mem _ mem_cons_self)
    · unfold lockModel
      split
      · exact hset.within
      · refine within_lockWithKey ?_ hset.within
        rw [hkeys]
        exact getModelLockKey_mem env _ _ _ _ _

variable {connectionId model : String}

theorem decay_of_get (hkey : getModelLockKey env provider connectionId model none none = key) :
    decayModelFailureCount env provider connectionId model s =
      match s.modelFailureState.get key with
      | none => s
      | some failure =>
        if failure.failureCount / 2 = 0 then
          { s with modelFailureState := s.modelFailureState.delete key }
        else
          { s with
            modelFailureState := s.modelFailureState.set key
              { failure with failureCount := failure.failureCount / 2 } } := by
  subst hkey
  rfl

/-- Under the key of the scope the count is halved, or dropped when nothing is left of it. -/
theorem decay_get (hkey : getModelLockKey env provider connectionId model none none = key)
    (k : String) :
    Alike t
      (if k = key then (s.modelFailureState.get k).map fun last =>
        { last with failureCount := last.failureCount / 2 } else s.modelFailureState.get k)
      ((decayModelFailureCount env provider connectionId model s).modelFailureState.get k) := by
  rw [decay_of_get hkey]
  cases hfailure : s.modelFailureState.get key with
  | none =>
    by_cases hk : k = key
    · rw [if_pos hk, hk, hfailure]
      exact .inl rfl
    · rw [if_neg hk]
      exact .inl rfl
  | some failure =>
    dsimp only
    by_cases hzero : failure.failureCount / 2 = 0
    · rw [if_pos hzero]
      by_cases hk : k = key
      · rw [if_pos hk, hk, hfailure]
        refine .inr ⟨fun last hlast => ?_, ?_⟩
        · cases hlast
          exact .inr hzero
        · rw [get_delete_self]
          exact spent_none
      · rw [if_neg hk, get_delete_ne _ hk]
        exact .inl rfl
    · rw [if_neg hzero]
      by_cases hk : k = key
      · rw [if_pos hk, hk, hfailure, OrdMap.get_set_self]
        exact .inl rfl
      · rw [if_neg hk, OrdMap.get_set_ne _ hk]
        exact .inl rfl

theorem within_decay (hmem : getModelLockKey env provider connectionId model none none ∈ keys)
    (h : Within keys s) :
    Within keys (decayModelFailureCount env provider connectionId model s) := by
  rw [decay_of_get rfl]
  split
  · exact h
  · split
    · intro k hk
      obtain ⟨hlock, hfailure⟩ := h k hk
      have hne : k ≠ getModelLockKey env provider connectionId model none none :=
        fun heq => hk (by rw [heq]; exact hmem)
      exact ⟨hlock, (get_delete_ne _ hne).trans hfailure⟩
    · exact within_set hmem h

theorem Tracks.decay (h : Tracks keys t key streak s)
    (hmem : getModelLockKey env provider connectionId model none none ∈ keys)
    (hmeets : getModelLockKey env provider connectionId model none none = key ∨
      nextFailureCount t streak = 1) :
    Tracks keys t key (streakStep env t streak (.decayModelFailureCount provider connectionId model))
      (decayModelFailureCount env provider connectionId model s) := by
  have hspent : ∀ k, Spent t (s.modelFailureState.get k) → Spent t
      ((decayModelFailureCount env provider connectionId model s).modelFailureState.get k) := by
    intro k hk
    refine (decay_get rfl k).spent ?_
    split
    · exact hk.decay
    · exact hk
  refine ⟨within_decay hmem h.within, ?_, fun k hk => hspent k (h.others k hk)⟩
  rcases hmeets with hkey | hone
  · refine Alike.trans ?_ (decay_get hkey key)
    rw [if_pos rfl]
    rcases h.kept with heq | ⟨hdead, hdead'⟩
    · rw [← heq]
      exact .inl rfl
    · exact .inr ⟨hdead.decay, hdead'.decay⟩
  · have hdead := spent_iff.2 hone
    exact .inr ⟨hdead.decay, hspent key (h.kept.spent hdead)⟩

/-- Every operation on the model keeps track of the streak. -/
theorem Tracks.step {op : Op}
    (h : Tracks (modelKeys env provider connectionId model) now key streak s) (ht : now ≤ t)
    (hon : op.On env provider connectionId model) (hmeets : op.Meets env t key streak) :
    Tracks (modelKeys env provider connectionId model) t (op.keyAfter env key)
      (streakStep env t streak op) (step env t s op) := by
  have hnow : Tracks (modelKeys env provider connectionId model) t key streak s :=
    h.fade ht (.refl t s) h.within
  have hlen : (modelKeys env provider connectionId model).length ≤ modelLockoutEvictionCap := by
    show 3 ≤ 1000
    decide
  cases op with
  | recordModelLockoutFailure f =>
    obtain ⟨halias, rfl, rfl⟩ := hon
    exact hnow.recordFailure (modelKeys_alias _ _ halias.symm) hmeets
  | lockModel p c m reason cooldownMs metadata =>
    obtain ⟨halias, rfl, rfl⟩ := hon
    refine hnow.fade (le_refl t) (fades_lockModel t p c m reason cooldownMs metadata s) ?_
    show Within _ (lockModel env t p c m reason cooldownMs metadata s)
    unfold lockModel
    split
    · exact hnow.within
    · refine within_lockWithKey ?_ hnow.within
      rw [← modelKeys_alias _ _ halias]
      exact getModelLockKey_mem env _ _ _ _ _
  | lockExactModel p c m reason cooldownMs metadata =>
    obtain ⟨halias, rfl, rfl⟩ := hon
    refine hnow.fade (le_refl t) (fades_lockExactModel t p c m reason cooldownMs metadata s) ?_
    show Within _ (lockExactModel env t p c m reason cooldownMs metadata s)
    unfold lockExactModel
    split
    · exact hnow.within
    · refine within_lockWithKey ?_ hnow.within
      rw [← modelKeys_alias _ _ halias]
      exact mem_cons_of_mem _ (mem_cons_of_mem _ mem_cons_self)
  | decayModelFailureCount p c m =>
    obtain ⟨halias, rfl, rfl⟩ := hon
    refine hnow.decay ?_ hmeets
    rw [← modelKeys_alias _ _ halias]
    exact getModelLockKey_mem env _ _ _ _ _
  | clearModelLock p c m =>
    obtain ⟨halias, rfl, rfl⟩ := hon
    have hclear : ∀ k, (clearModelLock env p c m s).modelFailureState.get k = none := by
      intro k
      rw [clearModelLock, if_neg hmeets]
      by_cases hk : k ∈ modelKeys env provider c m
      · refine clearMultiKeyLock_get ?_
        rw [getModelLockKeys, collectModelLockKeys, mem_eraseDups]
        rw [← modelKeys_alias _ _ halias] at hk
        exact hk
      · exact (within_clear hnow.within k hk).2
    refine ⟨?_, .inl (hclear key).symm, fun k _ => ?_⟩
    · show Within _ (clearModelLock env p c m s)
      rw [clearModelLock, if_neg hmeets]
      exact within_clear hnow.within
    · show Spent t ((clearModelLock env p c m s).modelFailureState.get k)
      rw [hclear k]
      exact spent_none
  | isModelLocked p c m =>
    have hboth : Fades t s (isModelLocked env t p c m s).2 ∧
        Within (modelKeys env provider connectionId model) (isModelLocked env t p c m s).2 := by
      unfold isModelLocked
      split
      · exact ⟨.refl t s, hnow.within⟩
      · exact ⟨fades_isAnyKeyLocked t _ s, within_isAnyKeyLocked hnow.within⟩
    exact hnow.fade (le_refl t) hboth.1 hboth.2
  | periodicCleanup =>
    have hlocks : Within (modelKeys env provider connectionId model)
        (cleanupKeys t s.modelLockouts.keys s) := within_cleanupKeys hnow.within
    have hwithin : Within (modelKeys env provider connectionId model)
        (cleanupKeys t (cleanupKeys t s.modelLockouts.keys s).modelFailureState.keys
          (cleanupKeys t s.modelLockouts.keys s)) := within_cleanupKeys hlocks
    have hevict := evict_of_within t hwithin hlen
    refine hnow.fade (le_refl t) ?_ ?_
    · show Fades t s (evictLockoutOverflow t _)
      rw [hevict]
      exact (fades_cleanupKeys t _ s).trans (fades_cleanupKeys t _ _)
    · show Within _ (evictLockoutOverflow t _)
      rw [hevict]
      exact hwithin
  | evictLockoutOverflow =>
    have hevict := evict_of_within t hnow.within hlen
    show Tracks _ t key streak (evictLockoutOverflow t s)
    rw [hevict]
    exact hnow

/-! ## Runs -/

theorem counts_from {events : List Event}
    (h : Tracks (modelKeys env provider connectionId model) now key streak s)
    (hon : ∀ e ∈ events, e.2.On env provider connectionId model)
    (hclock : (now :: events.map Prod.fst).Pairwise (· ≤ ·)) (hkeyed : Keyed env key streak events)
    (before : List Event) (u : ℚ) (f : Failure) (after : List Event)
    (hsplit : events = before ++ (u, .recordModelLockoutFailure f) :: after) :
    (recordModelLockoutFailure env u f (run env s before)).1.failureCount =
      nextFailureCount u (streakAfter env streak before) := by
  induction before generalizing now key streak s events with
  | nil =>
    subst hsplit
    have hle : now ≤ u := rel_of_pairwise_cons hclock mem_cons_self
    have hnow := h.fade hle (.refl u s) h.within
    exact hnow.counts hkeyed.1
  | cons e before ih =>
    subst hsplit
    obtain ⟨t, op⟩ := e
    have hle : now ≤ t := rel_of_pairwise_cons hclock mem_cons_self
    have hstep := h.step hle (hon _ mem_cons_self) hkeyed.1
    exact ih hstep (fun e he => hon e (mem_cons_of_mem _ he)) hclock.of_cons hkeyed.2 rfl

/-- **The counts of a run are the lengths of its streaks**, as long as every streak is met where it
is kept. -/
theorem countsStreak_of_keyed {provider connectionId model : String} {events : List Event}
    (hone : OneModel env provider connectionId model events) (hkeyed : Keyed env "" none events) :
    CountsStreak env events := by
  intro before u f after hsplit
  have hstart : ∀ now, Tracks (modelKeys env provider connectionId model) now "" none {} :=
    fun now => ⟨fun _ _ => ⟨rfl, rfl⟩, .inl rfl, fun _ _ => spent_none⟩
  cases events with
  | nil => exact absurd (congrArg List.length hsplit) (by simp)
  | cons e events =>
    refine counts_from (hstart e.1) hone.on ?_ hkeyed before u f after hsplit
    rw [map_cons, pairwise_cons]
    refine ⟨fun t ht => ?_, hone.clock⟩
    rcases mem_cons.1 ht with rfl | ht
    · exact le_refl _
    · exact rel_of_pairwise_cons hone.clock ht

end Tracking

/-- A failure of a model whose exact locks are kept apart. -/
def lockedFailure (scope : Option LockScope) : Failure where
  provider := "openai"
  connectionId := "c1"
  model := "gpt-4o"
  reason := "rate_limit"
  status := 429
  fallbackCooldownMs := some 1000
  scope := scope

/-- Two failures with a success before the third. -/
def decayedRun (scope : Option LockScope) : List Event :=
  [(0, .recordModelLockoutFailure (lockedFailure scope)),
    (1, .recordModelLockoutFailure (lockedFailure scope)),
    (2, .decayModelFailureCount "openai" "c1" "gpt-4o"),
    (3, .recordModelLockoutFailure (lockedFailure scope))]

def streakEnv : LockEnv where
  resolveProviderId := id
  toLowerCase := id
  msUntilTomorrow := fun _ => 3600000

theorem oneModel_decayedRun (scope : Option LockScope) :
    OneModel streakEnv "openai" "c1" "gpt-4o" (decayedRun scope) := by
  refine ⟨?_, ?_⟩
  · simp [decayedRun, Op.On, lockedFailure]
  · show ([0, 1, 2, 3] : List ℚ).Pairwise (· ≤ ·)
    decide +kernel

/-- With the scope of the quota family the third failure counts two. -/
theorem decayedRun_counts : CountsStreak streakEnv (decayedRun none) := by
  refine countsStreak_of_keyed (oneModel_decayedRun none) ?_
  refine ⟨.inr ?_, .inl ?_, .inl ?_, .inl ?_, trivial⟩
  all_goals decide +kernel

/-- With the scope of one model it counts three: the decay is not felt. -/
theorem decayedRun_exact_counts : OneModel streakEnv "openai" "c1" "gpt-4o"
    (decayedRun (some .exact)) ∧ ¬CountsStreak streakEnv (decayedRun (some .exact)) := by
  refine ⟨oneModel_decayedRun _, fun h => ?_⟩
  have hthird := h ((decayedRun (some .exact)).take 3) 3 (lockedFailure (some .exact)) [] rfl
  exact absurd hthird (by decide +kernel)

end OmniRoute.ModelLockout
