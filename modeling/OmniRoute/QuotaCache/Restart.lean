import OmniRoute.QuotaCache.Rows

/-!
# What survives a restart

A row is written for a window when its percentage changed, not when its reset time did; a row does
not say that the percentage of a window was not reported; and the time of an entry is not that of its
rows. What is rebuilt is the entry that was lost, but for these.

**Main result (`survives_iff_recorded`).** As long as the window names are told apart, the entry
survives a restart after each report of a run exactly if each report of the run is `Recorded`.
-/

namespace OmniRoute.QuotaCache

open List Option

variable {P : Platform} {names : List String}

/-! ## Answers -/

/-- The flag and the reset time of an entry are those of its windows. -/
structure Computed (P : Platform) (e : QuotaCacheEntry) : Prop where
  exhausted : e.exhausted = isExhausted e.quotas
  nextResetAt : e.nextResetAt = if e.exhausted then earliestResetAt P e.quotas else none

theorem isExhausted_iff {quotas : OrdMap String QuotaInfo} : isExhausted quotas = true ↔
    quotas.values ≠ [] ∧ ∀ q ∈ quotas.values, q.fractionReported ≠ some false ∧
      q.remainingPercentage ≤ 0 := by
  simp [isExhausted]

variable {e : QuotaCacheEntry}

theorem answer_of_not_exhausted (h : e.exhausted = false) (now : ℤ) :
    (isAccountQuotaExhausted P (some e) now).2 = false := by
  simp [isAccountQuotaExhausted, h]

/-- An exhausted entry with a reset time is exhausted until then. -/
theorem answer_of_reset (h : e.exhausted = true) (hreset : truthy e.nextResetAt ≠ none) {ms : ℤ}
    (hms : resetMs P e.nextResetAt = some ms) (now : ℤ) :
    (isAccountQuotaExhausted P (some e) now).2 = decide (now < ms) := by
  have hadvanced : advancedWindowResetAt P e now = decide (ms ≤ now) := by
    rw [advancedWindowResetAt, hms]
  rw [isAccountQuotaExhausted]
  by_cases hle : ms ≤ now
  · simp [h, hadvanced, hle]
  · simp [h, hadvanced, hreset, hle, not_le.1 hle]

/-- One without a reset time is exhausted for a while. -/
theorem answer_of_ttl (h : e.exhausted = true) (hreset : e.nextResetAt = none) (now : ℤ) :
    (isAccountQuotaExhausted P (some e) now).2 =
      decide (now - e.fetchedAt ≤ exhaustedTtlMs) := by
  have hadvanced : advancedWindowResetAt P e now = false := by
    rw [advancedWindowResetAt, hreset]
    rfl
  rw [isAccountQuotaExhausted]
  by_cases hlt : exhaustedTtlMs < now - e.fetchedAt
  · simp [h, hadvanced, hreset, truthy, hlt, not_le.2 hlt]
  · simp [h, hadvanced, hreset, truthy, hlt, not_lt.1 hlt]

/-- Asking again, after the flag was cleared by the first answer, changes no answer. -/
theorem isAccountQuotaExhausted_again (entry : Option QuotaCacheEntry) {now later : ℤ}
    (h : now ≤ later) :
    (isAccountQuotaExhausted P (isAccountQuotaExhausted P entry now).1 later).2 =
      (isAccountQuotaExhausted P entry later).2 := by
  cases entry with
  | none => rfl
  | some e =>
    cases hexhausted : e.exhausted with
    | false => simp [isAccountQuotaExhausted, hexhausted]
    | true =>
      by_cases hadvanced : advancedWindowResetAt P e now = true
      · have hlater : advancedWindowResetAt P e later = true := by
          rw [advancedWindowResetAt] at hadvanced ⊢
          split at hadvanced
          · exact decide_eq_true ((of_decide_eq_true hadvanced).trans h)
          · cases hadvanced
        simp [isAccountQuotaExhausted, hexhausted, hadvanced, hlater]
      · by_cases hold : truthy e.nextResetAt = none ∧ exhaustedTtlMs < now - e.fetchedAt
        · simp [isAccountQuotaExhausted, hexhausted, hadvanced, hold]
        · simp [isAccountQuotaExhausted, hexhausted, hadvanced, hold]

/-- The entry after it was asked about at the given times. -/
def asked (P : Platform) (entry : Option QuotaCacheEntry) (times : List ℤ) : Option QuotaCacheEntry :=
  times.foldl (fun entry now => (isAccountQuotaExhausted P entry now).1) entry

theorem getQuotaWindowStatus_again (entry : Option QuotaCacheEntry) (now : ℤ) :
    getQuotaWindowStatus P (isAccountQuotaExhausted P entry now).1 =
      getQuotaWindowStatus P entry := by
  cases entry with
  | none => rfl
  | some e =>
    rw [isAccountQuotaExhausted]
    split_ifs <;> rfl

/-- However often an entry was asked about, the answers at a later time are those of the entry as
it was stored: clearing the flag is not observable. -/
theorem asked_unobservable (entry : Option QuotaCacheEntry) {times : List ℤ} {later : ℤ}
    (h : ∀ now ∈ times, now ≤ later) :
    (isAccountQuotaExhausted P (asked P entry times) later).2 =
        (isAccountQuotaExhausted P entry later).2 ∧
      getQuotaWindowStatus P (asked P entry times) = getQuotaWindowStatus P entry := by
  induction times generalizing entry with
  | nil => exact ⟨rfl, rfl⟩
  | cons now times ih =>
    obtain ⟨hanswer, hstatus⟩ := ih (isAccountQuotaExhausted P entry now).1
      fun now' hnow => h now' (mem_cons_of_mem _ hnow)
    exact ⟨hanswer.trans (isAccountQuotaExhausted_again entry (h now mem_cons_self)),
      hstatus.trans (getQuotaWindowStatus_again entry now)⟩

/-- The reset time of a computed entry: none, or one that parses and is not after any other. -/
theorem Computed.reset (h : Computed P e) (hexhausted : e.exhausted = true) :
    (e.nextResetAt = none ∧ ∀ q ∈ e.quotas.values, resetMs P q.resetAt = none) ∨
      ∃ ms, truthy e.nextResetAt ≠ none ∧ resetMs P e.nextResetAt = some ms ∧
        (∃ q ∈ e.quotas.values, resetMs P q.resetAt = some ms) ∧
        ∀ q ∈ e.quotas.values, ∀ ms', resetMs P q.resetAt = some ms' → ms ≤ ms' := by
  rw [h.nextResetAt, if_pos hexhausted]
  exact earliestResetAt_spec e.quotas

/-! ## What a rebuilt entry agrees on -/

/-- A window without the note that its percentage was not reported. -/
def QuotaInfo.forget (info : QuotaInfo) : QuotaInfo := { info with fractionReported := none }

/-- A window was reported, or its reset has passed. -/
def QuotaInfo.Known (P : Platform) (now : ℤ) (info : QuotaInfo) : Prop :=
  info.fractionReported = some false → ∃ ms, resetMs P info.resetAt = some ms ∧ ms ≤ now

variable {info : QuotaInfo}

theorem windowStatus_forget {now : ℤ} (h : info.Known P now) (thresholdPercent : ℚ) :
    windowStatus P info.forget thresholdPercent now = windowStatus P info thresholdPercent now := by
  by_cases hreported : info.fractionReported = some false
  · obtain ⟨ms, hms, hle⟩ := h hreported
    simp [windowStatus, QuotaInfo.forget, hms, hle]
  · have hsame : decide (info.forget.fractionReported = some false) =
        decide (info.fractionReported = some false) := by
      simp [QuotaInfo.forget, hreported]
    rw [windowStatus, windowStatus, hsame]
    rfl

theorem QuotaInfo.Known.later {now later : ℤ} (h : info.Known P now)
    (hle : now ≤ later) : info.Known P later := fun hreported => by
  obtain ⟨ms, hms, hms'⟩ := h hreported
  exact ⟨ms, hms, hms'.trans hle⟩

section Rebuilt

variable {e e' : QuotaCacheEntry}

section

variable (h : Renders QuotaInfo.forget e.quotas e'.quotas)
include h

theorem Renders.resets :
    e'.quotas.values.map (fun q => resetMs P q.resetAt) ⊆
        e.quotas.values.map (fun q => resetMs P q.resetAt) ∧
      e.quotas.values.map (fun q => resetMs P q.resetAt) ⊆
        e'.quotas.values.map fun q => resetMs P q.resetAt := by
  have hperm := h.values.map fun q => resetMs P q.resetAt
  rw [List.map_map] at hperm
  exact ⟨hperm.subset, hperm.symm.subset⟩

/-- An entry that is exhausted is rebuilt as exhausted, with the same reset. -/
theorem rebuilt_exhausted (he : Computed P e)
    (he' : Computed P e') (hexhausted : e.exhausted = true) :
    e'.exhausted = true ∧ resetMs P e'.nextResetAt = resetMs P e.nextResetAt := by
  have hexhausted' : e'.exhausted = true := by
    rw [he.exhausted, isExhausted_iff] at hexhausted
    rw [he'.exhausted, isExhausted_iff]
    obtain ⟨hne, hall⟩ := hexhausted
    refine ⟨?_, fun q hq => ?_⟩
    · intro hnil
      have hlength := h.values.length_eq
      rw [hnil, length_map] at hlength
      exact hne (length_eq_zero_iff.1 hlength.symm)
    · obtain ⟨q₀, hq₀, rfl⟩ := mem_map.1 (h.values.mem_iff.1 hq)
      exact ⟨by rintro ⟨⟩, (hall q₀ hq₀).2⟩
  refine ⟨hexhausted', ?_⟩
  rw [he.nextResetAt, he'.nextResetAt, if_pos hexhausted, if_pos hexhausted']
  exact resetMs_earliestResetAt h.resets.1 h.resets.2

/-- The same answers, from the time of the report on. -/
theorem rebuilt_answer (he : Computed P e)
    (he' : Computed P e') (hknown : ∀ q ∈ e.quotas.values, q.Known P e.fetchedAt)
    (hfetched : e.exhausted = true → e.nextResetAt = none → e'.fetchedAt = e.fetchedAt) {now : ℤ}
    (hnow : e.fetchedAt ≤ now) : (isAccountQuotaExhausted P (some e') now).2 =
      (isAccountQuotaExhausted P (some e) now).2 := by
  by_cases hexhausted : e.exhausted = true
  · obtain ⟨hexhausted', hreset⟩ := rebuilt_exhausted h he he' hexhausted
    rcases he.reset hexhausted with ⟨hnone, -⟩ | ⟨ms, htruthy, hms, -⟩
    · rcases he'.reset hexhausted' with ⟨hnone', -⟩ | ⟨ms', -, hms', -⟩
      · rw [answer_of_ttl hexhausted hnone, answer_of_ttl hexhausted' hnone',
          hfetched hexhausted hnone]
      · rw [hreset, hnone] at hms'
        cases hms'
    · rcases he'.reset hexhausted' with ⟨hnone', -⟩ | ⟨ms', htruthy', -⟩
      · rw [← hreset, hnone'] at hms
        cases hms
      · rw [answer_of_reset hexhausted htruthy hms,
          answer_of_reset hexhausted' htruthy' (hreset.trans hms)]
  · have hfalse := Bool.eq_false_of_not_eq_true hexhausted
    rw [answer_of_not_exhausted hfalse]
    by_cases hexhausted' : e'.exhausted = true
    · -- only a window that was not reported kept the entry from being exhausted
      have hall := isExhausted_iff.1 (he'.exhausted ▸ hexhausted')
      have hunreported : ∃ q ∈ e.quotas.values, q.fractionReported = some false := by
        by_contra hno
        refine hexhausted (he.exhausted.trans (isExhausted_iff.2 ⟨?_, fun q hq => ⟨?_, ?_⟩⟩))
        · intro hnil
          have hlength := h.values.length_eq
          rw [hnil] at hlength
          exact hall.1 (length_eq_zero_iff.1 hlength)
        · exact fun hreported => hno ⟨q, hq, hreported⟩
        · have hmem : q.forget ∈ e'.quotas.values :=
            h.values.mem_iff.2 (mem_map_of_mem hq)
          exact (hall.2 q.forget hmem).2
      obtain ⟨q, hq, hreported⟩ := hunreported
      obtain ⟨ms, hms, hle⟩ := hknown q hq hreported
      have hmem : q.forget ∈ e'.quotas.values := h.values.mem_iff.2 (mem_map_of_mem hq)
      rcases he'.reset hexhausted' with ⟨-, hnone⟩ | ⟨ms', htruthy', hms', -, hearliest⟩
      · have hnever := hnone q.forget hmem
        rw [show q.forget.resetAt = q.resetAt from rfl, hms] at hnever
        cases hnever
      · rw [answer_of_reset hexhausted' htruthy' hms']
        have hearly := hearliest q.forget hmem ms hms
        exact decide_eq_false (by omega)
    · exact answer_of_not_exhausted (Bool.eq_false_of_not_eq_true hexhausted') now

end

end Rebuilt

/-! ## What the rows keep -/

/-- The rows are of named windows; the latest of each has the percentage of the entry. -/
structure Tracked (P : Platform) (names : List String) (s : State) : Prop where
  clock : 0 ≤ s.clock
  rows : ∀ row ∈ s.rows, row.windowKey ∈ names ∧ 0 < row.createdAt ∧ row.createdAt ≤ s.clock
  fresh : s.entry = none → s.rows = []
  computed : ∀ e, s.entry = some e → Computed P e
  fetched : ∀ e, s.entry = some e → 0 < e.fetchedAt ∧ e.fetchedAt ≤ s.clock
  names : ∀ e, s.entry = some e → ∀ key, key ∈ e.quotas.keys ↔ key ∈ names
  kept : ∀ e, s.entry = some e → ∀ key info, e.quotas.get key = some info →
    ∃ row, latestRow s.rows key = some row ∧
      row.remainingPercentage = info.remainingPercentage ∧
      0 ≤ info.remainingPercentage ∧ info.remainingPercentage ≤ 100

/-- The entry as it is rebuilt after a restart. -/
def State.rebuilt (P : Platform) (s : State) (now : ℤ) : Option QuotaCacheEntry :=
  hydrate P s.rows now

/-- What a window reports that survives. -/
def QuotaInfo.kept (info : QuotaInfo) : ℚ × Option String :=
  (info.remainingPercentage, info.resetAt)

/-- The rebuilt entry has the windows of the entry, and gives the same answers from then on. -/
structure Survives (P : Platform) (s : State) : Prop where
  windows : ∀ at_ key, ((s.rebuilt P at_).bind fun e => e.quotas.get key).map QuotaInfo.kept =
    (s.entry.bind fun e => e.quotas.get key).map QuotaInfo.kept
  exhausted : ∀ at_ e now, s.entry = some e → e.fetchedAt ≤ now →
    (isAccountQuotaExhausted P (s.rebuilt P at_) now).2 =
      (isAccountQuotaExhausted P s.entry now).2
  status : ∀ at_ e now windowName thresholdPercent, s.entry = some e → e.fetchedAt ≤ now →
    getQuotaWindowStatus P (s.rebuilt P at_) windowName thresholdPercent now =
      getQuotaWindowStatus P s.entry windowName thresholdPercent now

/-- The latest rows have the reset times, nothing unknown was left out, and the time is right where
it matters. -/
structure Mirrored (P : Platform) (s : State) : Prop where
  resets : ∀ e, s.entry = some e → ∀ key info row, e.quotas.get key = some info →
    latestRow s.rows key = some row → row.nextResetAt = info.resetAt
  known : ∀ e, s.entry = some e → ∀ q ∈ e.quotas.values, q.Known P e.fetchedAt
  time : ∀ e, s.entry = some e → e.exhausted = true → e.nextResetAt = none →
    snapshotTime P s.rows = e.fetchedAt

theorem clampPercent_self {value : ℚ} (h : 0 ≤ value) (h' : value ≤ 100) :
    clampPercent value = value := by
  rw [clampPercent, min_eq_right h', max_eq_right h]

section Static

variable {s : State} {e : QuotaCacheEntry}

theorem Tracked.rows_named (h : Tracked P names s) (hempty : "" ∉ names) :
    ∀ row ∈ s.rows, row.windowKey ≠ "" := by
  rintro row hrow heq
  exact hempty (heq ▸ (h.rows row hrow).1)

/-- What is rebuilt, window by window. -/
theorem Tracked.quota (h : Tracked P names s) (he : s.entry = some e) {key : String} :
    (latestRow s.rows key).map SnapshotRow.quota =
      (e.quotas.get key).bind fun info => (latestRow s.rows key).map fun row =>
        ⟨info.remainingPercentage, row.nextResetAt, none⟩ := by
  cases hget : e.quotas.get key with
  | none =>
    have hkey : key ∉ names := fun hmem =>
      OrdMap.get_eq_none.1 hget ((h.names e he key).2 hmem)
    cases hrow : latestRow s.rows key with
    | none => rfl
    | some row =>
      obtain ⟨hmem, heq⟩ := latestRow_mem hrow
      exact absurd (heq ▸ (h.rows row hmem).1) hkey
  | some info =>
    obtain ⟨row, hrow, hsame, hnonneg, hle⟩ := h.kept e he key info hget
    rw [hrow, bind_some, map_some, map_some, SnapshotRow.quota, hsame,
      clampPercent_self hnonneg hle]

/-- An entry with windows is rebuilt, one without is not. -/
theorem Tracked.rebuilt (h : Tracked P names s) (hP : P.Lawful) (hempty : "" ∉ names)
    (he : s.entry = some e) (at_ : ℤ) :
    (s.rebuilt P at_ = none ∧ e.quotas.values = []) ∨
      ∃ e', s.rebuilt P at_ = some e' ∧ Computed P e' ∧ e'.fetchedAt = snapshotTime P s.rows ∧
        ∀ key, e'.quotas.get key = (latestRow s.rows key).map SnapshotRow.quota := by
  by_cases hrows : s.rows = []
  · refine Or.inl ⟨?_, ?_⟩
    · rw [State.rebuilt, hrows]
      exact hydrate_nil hP at_
    · refine eq_nil_iff_forall_not_mem.2 fun q hq => ?_
      obtain ⟨key, hget⟩ := mem_values.1 hq
      obtain ⟨row, hrow, -⟩ := h.kept e he key q hget
      have hmem := (latestRow_mem hrow).1
      rw [hrows] at hmem
      cases hmem
  · obtain ⟨e', he', hget, hfetched, hexhausted, hnext⟩ := hydrate_spec hP (h.rows_named hempty)
      (fun row hrow => (h.rows row hrow).2.1) hrows at_
    exact Or.inr ⟨e', he', ⟨hexhausted, hnext⟩, hfetched, hget⟩

variable {quotas : OrdMap String QuotaInfo}

theorem resolveQuotaWindow_of_values_nil (h : quotas.values = []) (name : String) :
    resolveQuotaWindow P quotas name = none := by
  refine eq_none_iff_forall_ne_some.2 fun v hv => ?_
  have hmem := resolveQuotaWindow_mem hv
  rw [h] at hmem
  cases hmem

theorem get_of_values_nil (h : quotas.values = []) (key : String) : quotas.get key = none := by
  refine eq_none_iff_forall_ne_some.2 fun v hv => ?_
  have hmem := mem_values.2 ⟨key, hv⟩
  rw [h] at hmem
  cases hmem

theorem Tracked.renders (h : Tracked P names s) (he : s.entry = some e)
    (hresets : ∀ key info row, e.quotas.get key = some info → latestRow s.rows key = some row →
      row.nextResetAt = info.resetAt) {e' : QuotaCacheEntry}
    (hget : ∀ key, e'.quotas.get key = (latestRow s.rows key).map SnapshotRow.quota) :
    Renders QuotaInfo.forget e.quotas e'.quotas := by
  refine renders_of_get fun key => ?_
  rw [hget, h.quota he]
  cases hinfo : e.quotas.get key with
  | none => rfl
  | some info =>
    obtain ⟨row, hrow, -⟩ := h.kept e he key info hinfo
    rw [hrow, bind_some, map_some, map_some, hresets key info row hinfo hrow]
    rfl

theorem Mirrored.survives (hm : Mirrored P s) (hP : P.Lawful) (h : Tracked P names s)
    (hempty : "" ∉ names) (hapart : Apart P names) : Survives P s := by
  cases he : s.entry with
  | none =>
    have hnone : ∀ at_, s.rebuilt P at_ = none := fun at_ => by
      rw [State.rebuilt, h.fresh he]
      exact hydrate_nil hP at_
    refine ⟨fun at_ key => ?_, fun at_ e now he' => ?_, fun at_ e now _ _ he' => ?_⟩
    · rw [hnone, he]
    · rw [he] at he'
      cases he'
    · rw [he] at he'
      cases he'
  | some e =>
    have hkeys : Apart P e.quotas.keys := fun a ha b hb =>
      hapart a ((h.names e he a).1 ha) b ((h.names e he b).1 hb)
    refine ⟨fun at_ key => ?_, fun at_ e₁ now he₁ hnow => ?_, fun at_ e₁ now name threshold he₁
      hnow => ?_⟩
    · rw [he, bind_some]
      rcases h.rebuilt hP hempty he at_ with ⟨hnone, hnil⟩ | ⟨e', he', -, -, hget⟩
      · rw [hnone, get_of_values_nil hnil]
        rfl
      · rw [he', bind_some, (h.renders he (hm.resets e he) hget).get, Option.map_map]
        rfl
    · obtain rfl := Option.some.inj (he.symm.trans he₁)
      rw [he]
      rcases h.rebuilt hP hempty he at_ with ⟨hnone, hnil⟩ | ⟨e', he', hcomputed, hfetched, hget⟩
      · rw [hnone]
        have hfalse : e.exhausted = false := by
          rw [(h.computed e he).exhausted]
          refine Bool.eq_false_of_not_eq_true fun htrue => ?_
          exact (isExhausted_iff.1 htrue).1 hnil
        exact (answer_of_not_exhausted hfalse now).symm
      · rw [he']
        exact rebuilt_answer (h.renders he (hm.resets e he) hget)
          (h.computed e he) hcomputed (hm.known e he)
          (fun hexhausted hnext => hfetched.trans (hm.time e he hexhausted hnext)) hnow
    · obtain rfl := Option.some.inj (he.symm.trans he₁)
      rw [he]
      rcases h.rebuilt hP hempty he at_ with ⟨hnone, hnil⟩ | ⟨e', he', -, -, hget⟩
      · rw [hnone, getQuotaWindowStatus, getQuotaWindowStatus, bind_some,
          resolveQuotaWindow_of_values_nil hnil]
        rfl
      · rw [he', getQuotaWindowStatus, getQuotaWindowStatus, bind_some, bind_some,
          resolveQuotaWindow_perm hP (h.renders he (hm.resets e he) hget) hkeys]
        cases hfound : resolveQuotaWindow P e.quotas name with
        | none => rfl
        | some info =>
          have hknown := (hm.known e he info (resolveQuotaWindow_mem hfound)).later hnow
          exact congrArg some (windowStatus_forget hknown threshold)

theorem resolveQuotaWindow_of_get {name : String}
    (h : quotas.get name = some info) : resolveQuotaWindow P quotas name = some info := by
  rw [resolveQuotaWindow, h]

/-- A window that was not reported and one that was are told apart by the lowest threshold. -/
theorem reachedThreshold_forget (now : ℤ) (hreported : info.fractionReported = some false)
    (hopen : ∀ ms, resetMs P info.resetAt = some ms → now < ms) :
    (windowStatus P info 0 now).reachedThreshold = false ∧
      (windowStatus P info.forget 0 now).reachedThreshold = true := by
  have hunexpired : (resetMs P info.resetAt).any (fun ms => decide (ms ≤ now)) = false := by
    cases hms : resetMs P info.resetAt with
    | none => rfl
    | some ms => exact decide_eq_false (not_le.2 (hopen ms hms))
  have hused : ∀ value, 0 ≤ clampPercent value := fun value => le_max_left 0 _
  refine ⟨?_, ?_⟩
  · simp [windowStatus, hreported]
  · have hunexpired' : (resetMs P info.forget.resetAt).any (fun ms => decide (ms ≤ now)) = false :=
      hunexpired
    rw [windowStatus]
    dsimp only
    rw [hunexpired']
    simp [QuotaInfo.forget, hused]

theorem Survives.mirrored (hs : Survives P s) (hP : P.Lawful) (h : Tracked P names s)
    (hempty : "" ∉ names) : Mirrored P s := by
  have hresets : ∀ e, s.entry = some e → ∀ key info row, e.quotas.get key = some info →
      latestRow s.rows key = some row → row.nextResetAt = info.resetAt := by
    intro e he key info row hinfo hrow
    have hwindow := hs.windows 0 key
    rcases h.rebuilt hP hempty he 0 with ⟨-, hnil⟩ | ⟨e', he', -, -, hget⟩
    · rw [get_of_values_nil hnil] at hinfo
      cases hinfo
    · rw [he', he, bind_some, bind_some, hget, hinfo, hrow] at hwindow
      exact (Prod.mk.inj (Option.some.inj hwindow)).2
  have hknown : ∀ e, s.entry = some e → ∀ q ∈ e.quotas.values, q.Known P e.fetchedAt := by
    intro e he q hq hreported
    by_contra hopen
    obtain ⟨key, hinfo⟩ := mem_values.1 hq
    have hstatus := hs.status 0 e e.fetchedAt key 0 he le_rfl
    rcases h.rebuilt hP hempty he 0 with ⟨-, hnil⟩ | ⟨e', he', -, -, hget⟩
    · rw [hnil] at hq
      cases hq
    · have hinfo' : e'.quotas.get key = some q.forget := by
        rw [(h.renders he (hresets e he) hget).get, hinfo]
        rfl
      rw [he', he, getQuotaWindowStatus, getQuotaWindowStatus, bind_some, bind_some,
        resolveQuotaWindow_of_get hinfo, resolveQuotaWindow_of_get hinfo'] at hstatus
      obtain ⟨hfalse, htrue⟩ := reachedThreshold_forget (P := P) e.fetchedAt hreported
        fun ms hms => not_le.1 fun hle => hopen ⟨ms, hms, hle⟩
      have hsame := congrArg QuotaWindowStatus.reachedThreshold (Option.some.inj hstatus)
      rw [hfalse, htrue] at hsame
      cases hsame
  refine ⟨hresets, hknown, fun e he hexhausted hnext => ?_⟩
  rcases h.rebuilt hP hempty he 0 with ⟨-, hnil⟩ | ⟨e', he', hcomputed, hfetched, hget⟩
  · rw [(h.computed e he).exhausted, isExhausted_iff] at hexhausted
    exact absurd hnil hexhausted.1
  · obtain ⟨hexhausted', hreset⟩ := rebuilt_exhausted (h.renders he (hresets e he) hget)
      (h.computed e he) hcomputed hexhausted
    have hnext' : e'.nextResetAt = none := by
      rcases hcomputed.reset hexhausted' with ⟨hnone, -⟩ | ⟨ms, -, hms, -⟩
      · exact hnone
      · rw [hreset, hnext] at hms
        cases hms
    have hanswer : ∀ now, e.fetchedAt ≤ now →
        (now - e'.fetchedAt ≤ exhaustedTtlMs ↔ now - e.fetchedAt ≤ exhaustedTtlMs) := by
      intro now hnow
      have hsame := hs.exhausted 0 e now he hnow
      rw [he', he, answer_of_ttl hexhausted' hnext', answer_of_ttl hexhausted hnext] at hsame
      exact decide_eq_decide.1 hsame
    have hle := (hanswer (e.fetchedAt + exhaustedTtlMs)
      (Int.le_add_of_nonneg_right (by decide))).2 (by omega)
    have hge := hanswer (e'.fetchedAt + exhaustedTtlMs)
    rw [← hfetched]
    rw [exhaustedTtlMs] at hle hge
    omega

end Static

/-! ## Reports -/

/-- A report of these windows, with percentages between 0 and 100. -/
structure Report.Names (names : List String) (r : Report) : Prop where
  keys : ∀ key, key ∈ r.rawQuotas.keys ↔ key ∈ names
  percentages : ∀ key q, r.rawQuotas.get key = some q → 0 ≤ q.percentage ∧ q.percentage ≤ 100

/-- What has to hold of a report for the entry to survive: of each window a row is written, or its
reset time is the one before; an unreported percentage is of a window that has been reset; and if all
windows are exhausted without a reset time, a row is written, at the time of the entry. -/
structure Report.Recorded (P : Platform) (s : State) (r : Report) : Prop where
  resets : ∀ key q, r.rawQuotas.get key = some q →
    if Report.writes s.entry key q then q.resetAt ≠ some ""
    else ∀ e info, s.entry = some e → e.quotas.get key = some info → info.resetAt = truthy q.resetAt
  known : ∀ key q, r.rawQuotas.get key = some q → q.fractionReported = some false →
    ∃ ms, resetMs P q.resetAt = some ms ∧ ms ≤ r.now
  time : isExhausted (normalizeQuotas r.rawQuotas) = true →
    (∀ key q, r.rawQuotas.get key = some q → resetMs P q.resetAt = none) →
    (∃ key q, r.rawQuotas.get key = some q ∧ Report.writes s.entry key q = true) ∧
      ∀ key q, r.rawQuotas.get key = some q → Report.writes s.entry key q = true →
        r.writtenAt key = r.now

section Step

variable {s : State} {r : Report}

theorem truthy_truthy (text : Option String) : truthy (truthy text) = truthy text := by
  rw [truthy, truthy, Option.filter_filter]
  simp

theorem resetMs_truthy (resetAt : Option String) :
    resetMs P (truthy resetAt) = resetMs P resetAt := by
  rw [resetMs, truthy_truthy]
  rfl

theorem renders_normalizeQuotas (rawQuotas : OrdMap String RawQuota) :
    Renders RawQuota.normalize rawQuotas (normalizeQuotas rawQuotas) := List.Perm.refl _

theorem get_normalizeQuotas {rawQuotas : OrdMap String RawQuota} {key : String} :
    (normalizeQuotas rawQuotas).get key = (rawQuotas.get key).map RawQuota.normalize :=
  (renders_normalizeQuotas rawQuotas).get key

/-- When no row is written, the window had the same percentage before. -/
theorem not_writes {prior : Option QuotaCacheEntry} {key : String} {q : RawQuota}
    (h : Report.writes prior key q = false) : ∃ e info, prior = some e ∧
      e.quotas.get key = some info ∧ info.remainingPercentage = q.percentage := by
  cases prior with
  | none => cases h
  | some e =>
    rw [Report.writes, quotaSnapshotChanged] at h
    cases hinfo : e.quotas.get key with
    | none =>
      rw [hinfo] at h
      cases h
    | some info =>
      rw [hinfo] at h
      have hsame := (Bool.or_eq_false_iff.1 h).1
      exact ⟨e, info, rfl, hinfo, not_not.1 (of_decide_eq_false hsame)⟩

theorem filter_rows {key : String} {q : RawQuota} (hget : r.rawQuotas.get key = some q)
    (prior : Option QuotaCacheEntry) :
    (r.rows prior).filter (fun row => row.windowKey = key) =
      if Report.writes prior key q then [r.row key q] else [] := by
  rw [Report.rows, List.filter_map, List.filter_filter]
  have hcongr : (r.rawQuotas.entries.filter fun entry =>
      ((fun row => decide (row.windowKey = key)) ∘ fun entry : String × RawQuota =>
        r.row entry.1 entry.2) entry && Report.writes prior entry.1 entry.2) =
      (r.rawQuotas.entries.filter fun entry => entry.1 = key).filter fun entry =>
        Report.writes prior entry.1 entry.2 := by
    rw [List.filter_filter]
    refine filter_congr fun entry _ => ?_
    exact Bool.and_comm ..
  rw [hcongr, OrdMap.filter_key hget]
  by_cases hwrites : Report.writes prior key q = true
  · simp [hwrites]
  · simp [hwrites]

/-- The guard of a step. -/
def Report.After (s : State) (r : Report) : Prop :=
  s.clock < r.now ∧ ∀ windowKey ∈ r.rawQuotas.keys, r.now ≤ r.writtenAt windowKey

/-- The latest row of a window after a report. -/
theorem latestRow_report (h : Tracked P names s) (hafter : r.After s) {key : String} {q : RawQuota}
    (hget : r.rawQuotas.get key = some q) :
    latestRow (s.rows ++ r.rows s.entry) key =
      if Report.writes s.entry key q then some (r.row key q) else latestRow s.rows key := by
  have hfilter := filter_rows hget s.entry
  by_cases hwrites : Report.writes s.entry key q = true
  · rw [if_pos hwrites] at hfilter ⊢
    refine latestRow_append_single hfilter fun old hold => ?_
    have hwritten := hafter.2 key (OrdMap.mem_keys.2 ⟨q, hget⟩)
    have hold' := (h.rows old hold).2.2
    have hclock := hafter.1
    show old.createdAt ≤ r.writtenAt key
    omega
  · rw [if_neg hwrites] at hfilter ⊢
    refine latestRow_append_other fun row hrow heq => ?_
    have hmem : row ∈ (r.rows s.entry).filter fun row => row.windowKey = key :=
      mem_filter.2 ⟨hrow, decide_eq_true heq⟩
    rw [hfilter] at hmem
    cases hmem

theorem Tracked.report (h : Tracked P names s) (hnames : r.Names names) (hafter : r.After s) :
    Tracked P names (setQuotaCache P s r) := by
  have hclock : r.now ≤ (setQuotaCache P s r).clock := le_foldl_max
  have hstart := h.clock
  have hlater := hafter.1
  refine ⟨by omega, ?_, ?_, ?_, ?_, ?_, ?_⟩
  · intro row hrow
    rcases mem_append.1 hrow with hold | hnew
    · obtain ⟨hname, hpos, hle⟩ := h.rows row hold
      exact ⟨hname, hpos, by omega⟩
    · obtain ⟨⟨key, q⟩, hentry, rfl⟩ := mem_map.1 hnew
      have hkey : key ∈ r.rawQuotas.keys := mem_map_of_mem (mem_of_mem_filter hentry)
      have hwritten := hafter.2 key hkey
      have hle : r.writtenAt key ≤ (setQuotaCache P s r).clock :=
        le_foldl_max_of_mem (mem_map_of_mem hkey)
      refine ⟨(hnames.keys key).1 hkey, ?_, hle⟩
      show 0 < r.writtenAt key
      omega
  · rintro ⟨⟩
  · rintro e ⟨⟩
    exact ⟨rfl, rfl⟩
  · rintro e ⟨⟩
    exact ⟨by show 0 < r.now; omega, hclock⟩
  · rintro e ⟨⟩ key
    rw [← hnames.keys key, OrdMap.mem_keys, OrdMap.mem_keys]
    show (∃ v, (normalizeQuotas r.rawQuotas).get key = some v) ↔ _
    rw [get_normalizeQuotas]
    cases r.rawQuotas.get key <;> simp
  · rintro e ⟨⟩ key info hinfo
    have hinfo' : (normalizeQuotas r.rawQuotas).get key = some info := hinfo
    rw [get_normalizeQuotas, map_eq_some_iff] at hinfo'
    obtain ⟨q, hget, rfl⟩ := hinfo'
    have hrow := latestRow_report h hafter hget
    by_cases hwrites : Report.writes s.entry key q = true
    · rw [if_pos hwrites] at hrow
      exact ⟨_, hrow, rfl, hnames.percentages key q hget⟩
    · rw [if_neg hwrites] at hrow
      obtain ⟨e, prior, he, hprior, hsame⟩ := not_writes (Bool.eq_false_of_not_eq_true hwrites)
      obtain ⟨row, hlatest, hkept, -⟩ := h.kept e he key prior hprior
      exact ⟨row, hrow.trans hlatest, hkept.trans hsame, hnames.percentages key q hget⟩

/-! ## One report -/

/-- The latest rows of the windows of a report are its own, and those that it did not replace. -/
theorem mem_snapshots_report (hP : P.Lawful) (h : Tracked P names s) (hnames : r.Names names)
    (hafter : r.After s) {row : SnapshotRow} (hrow : row ∈ snapshots P (s.rows ++ r.rows s.entry)) :
    (∃ q, r.rawQuotas.get row.windowKey = some q ∧ Report.writes s.entry row.windowKey q = true ∧
      row = r.row row.windowKey q) ∨ row.createdAt < r.now := by
  obtain ⟨hlatest, -⟩ := (mem_snapshots hP).1 hrow
  have hname : row.windowKey ∈ names := by
    have htracked := h.report (P := P) hnames hafter
    exact (htracked.rows row (latestRow_mem hlatest).1).1
  obtain ⟨q, hget⟩ := OrdMap.mem_keys.1 ((hnames.keys row.windowKey).2 hname)
  rw [latestRow_report h hafter hget] at hlatest
  by_cases hwrites : Report.writes s.entry row.windowKey q = true
  · rw [if_pos hwrites] at hlatest
    exact Or.inl ⟨q, hget, hwrites, (Option.some.inj hlatest).symm⟩
  · rw [if_neg hwrites] at hlatest
    have hle := (h.rows row (latestRow_mem hlatest).1).2.2
    exact Or.inr (hle.trans_lt hafter.1)

/-- The rows are read with the time of the entry exactly if one was written, and all in time. -/
theorem snapshotTime_report (hP : P.Lawful) (h : Tracked P names s) (hnames : r.Names names)
    (hafter : r.After s) (hempty : "" ∉ names) :
    snapshotTime P (s.rows ++ r.rows s.entry) = r.now ↔
      (∃ key q, r.rawQuotas.get key = some q ∧ Report.writes s.entry key q = true) ∧
        ∀ key q, r.rawQuotas.get key = some q → Report.writes s.entry key q = true →
          r.writtenAt key = r.now := by
  have hpos : 0 < r.now := h.clock.trans_lt hafter.1
  have hwritten : ∀ key q, r.rawQuotas.get key = some q → Report.writes s.entry key q = true →
      r.row key q ∈ snapshots P (s.rows ++ r.rows s.entry) := by
    intro key q hget hwrites
    refine (mem_snapshots hP).2 ⟨?_, ?_⟩
    · show latestRow (s.rows ++ r.rows s.entry) key = some (r.row key q)
      rw [latestRow_report h hafter hget, if_pos hwrites]
    · rintro rfl
      exact hempty ((hnames.keys "").1 (OrdMap.mem_keys.2 ⟨q, hget⟩))
  have hge : ∀ key q, r.rawQuotas.get key = some q → r.now ≤ r.writtenAt key := fun key q hget =>
    hafter.2 key (OrdMap.mem_keys.2 ⟨q, hget⟩)
  constructor
  · intro htime
    refine ⟨?_, fun key q hget hwrites => le_antisymm ?_ (hge key q hget)⟩
    · rcases foldl_max_mem ((snapshots P (s.rows ++ r.rows s.entry)).map SnapshotRow.createdAt) 0
        with hzero | hmem
      · exact absurd (htime.symm.trans hzero) hpos.ne'
      · obtain ⟨row, hrow, hcreated⟩ := mem_map.1 hmem
        rcases mem_snapshots_report hP h hnames hafter hrow with ⟨q, hget, hwrites, -⟩ | hlt
        · exact ⟨row.windowKey, q, hget, hwrites⟩
        · exact absurd (hcreated.trans htime) hlt.ne
    · rw [← htime]
      exact le_foldl_max_of_mem (mem_map_of_mem (f := SnapshotRow.createdAt)
        (hwritten key q hget hwrites))
  · rintro ⟨⟨key, q, hget, hwrites⟩, hall⟩
    refine le_antisymm (foldl_max_le_iff.2 ⟨hpos.le, ?_⟩) ?_
    · intro created hcreated
      obtain ⟨row, hrow, rfl⟩ := mem_map.1 hcreated
      rcases mem_snapshots_report hP h hnames hafter hrow with
        ⟨q', hget', hwrites', heq⟩ | hlt
      · rw [heq]
        exact (hall _ _ hget' hwrites').le
      · exact hlt.le
    · rw [← hall key q hget hwrites]
      exact le_foldl_max_of_mem (mem_map_of_mem (f := SnapshotRow.createdAt)
        (hwritten key q hget hwrites))

theorem normalize_known {q : RawQuota} {now : ℤ} : q.normalize.Known P now ↔
    (q.fractionReported = some false → ∃ ms, resetMs P q.resetAt = some ms ∧ ms ≤ now) := by
  rw [QuotaInfo.Known]
  show ((if q.fractionReported = some false then some false else none) = some false →
    ∃ ms, resetMs P (truthy q.resetAt) = some ms ∧ ms ≤ now) ↔ _
  rw [resetMs_truthy]
  by_cases hreported : q.fractionReported = some false
  · simp [hreported]
  · simp [hreported]

theorem mem_values_report : info ∈ (r.entry P).quotas.values ↔
    ∃ key q, r.rawQuotas.get key = some q ∧ q.normalize = info := by
  rw [mem_values]
  refine exists_congr fun key => ?_
  show (normalizeQuotas r.rawQuotas).get key = some info ↔ _
  rw [get_normalizeQuotas, map_eq_some_iff]

/-- After a report the rows mirror the entry exactly if the report is recorded. -/
theorem mirrored_report_iff (hP : P.Lawful) (h : Tracked P names s) (hm : Mirrored P s)
    (hnames : r.Names names) (hafter : r.After s) (hempty : "" ∉ names) :
    Mirrored P (setQuotaCache P s r) ↔ r.Recorded P s := by
  have hquota : ∀ key q, r.rawQuotas.get key = some q →
      (r.entry P).quotas.get key = some q.normalize := by
    intro key q hget
    show (normalizeQuotas r.rawQuotas).get key = some q.normalize
    rw [get_normalizeQuotas, hget]
    rfl
  have hcomputed : Computed P (r.entry P) := ⟨rfl, rfl⟩
  have hunset : (r.entry P).exhausted = true → ((r.entry P).nextResetAt = none ↔
      ∀ key q, r.rawQuotas.get key = some q → resetMs P q.resetAt = none) := by
    intro hexhausted
    rcases hcomputed.reset hexhausted with ⟨hnone, hall⟩ | ⟨ms, htruthy, -, ⟨info, hinfo, hms⟩, -⟩
    · refine iff_of_true hnone fun key q hget => ?_
      have hvalue := hall q.normalize (mem_values_report.2 ⟨key, q, hget, rfl⟩)
      rwa [show q.normalize.resetAt = truthy q.resetAt from rfl, resetMs_truthy] at hvalue
    · refine iff_of_false ?_ fun hall => ?_
      · intro hnone
        exact htruthy (by rw [hnone]; rfl)
      · obtain ⟨key, q, hget, rfl⟩ := mem_values_report.1 hinfo
        rw [show q.normalize.resetAt = truthy q.resetAt from rfl, resetMs_truthy,
          hall key q hget] at hms
        cases hms
  have hprior : ∀ key q, r.rawQuotas.get key = some q → Report.writes s.entry key q = false →
      ∃ e info row, s.entry = some e ∧ e.quotas.get key = some info ∧
        latestRow s.rows key = some row ∧ row.nextResetAt = info.resetAt := by
    intro key q hget hwrites
    obtain ⟨e, info, he, hinfo, -⟩ := not_writes hwrites
    obtain ⟨row, hrow, -⟩ := h.kept e he key info hinfo
    exact ⟨e, info, row, he, hinfo, hrow, hm.resets e he key info row hinfo hrow⟩
  constructor
  · intro hm'
    refine ⟨fun key q hget => ?_, fun key q hget => ?_, fun hexhausted hall => ?_⟩
    · have hrow := latestRow_report h hafter hget
      by_cases hwrites : Report.writes s.entry key q = true
      · rw [if_pos hwrites] at hrow ⊢
        intro hblank
        have hsame := hm'.resets _ rfl key _ _ (hquota key q hget) hrow
        have heq : q.resetAt = truthy q.resetAt := hsame
        rw [hblank] at heq
        cases heq
      · rw [if_neg hwrites] at hrow ⊢
        intro e info he hinfo
        obtain ⟨e₁, info₁, row, he₁, hinfo₁, hlatest, hreset⟩ :=
          hprior key q hget (Bool.eq_false_of_not_eq_true hwrites)
        obtain rfl := Option.some.inj (he.symm.trans he₁)
        obtain rfl := Option.some.inj (hinfo.symm.trans hinfo₁)
        exact hreset.symm.trans
          (hm'.resets _ rfl key _ row (hquota key q hget) (hrow.trans hlatest))
    · exact normalize_known.1 (hm'.known _ rfl _ (mem_values_report.2 ⟨key, q, hget, rfl⟩))
    · have htime := hm'.time _ rfl hexhausted ((hunset hexhausted).2 hall)
      exact (snapshotTime_report hP h hnames hafter hempty).1 htime
  · intro hr
    refine ⟨?_, ?_, ?_⟩
    · rintro e ⟨⟩ key info row hinfo hrow
      have hinfo' : (normalizeQuotas r.rawQuotas).get key = some info := hinfo
      rw [get_normalizeQuotas, map_eq_some_iff] at hinfo'
      obtain ⟨q, hget, rfl⟩ := hinfo'
      have hlatest := latestRow_report h hafter hget
      have hreset := hr.resets key q hget
      by_cases hwrites : Report.writes s.entry key q = true
      · rw [if_pos hwrites] at hlatest hreset
        obtain rfl := Option.some.inj (hlatest.symm.trans hrow)
        show q.resetAt = truthy q.resetAt
        cases htext : q.resetAt with
        | none => rfl
        | some text =>
          have hne : text ≠ "" := fun hblank => hreset (by rw [htext, hblank])
          rw [truthy, filter_some, if_pos (decide_eq_true hne)]
      · rw [if_neg hwrites] at hlatest hreset
        obtain ⟨e, prior, row', he, hinfo', hlatest', hsame⟩ :=
          hprior key q hget (Bool.eq_false_of_not_eq_true hwrites)
        obtain rfl := Option.some.inj ((hlatest.trans hlatest').symm.trans hrow)
        exact hsame.trans (hreset e prior he hinfo')
    · rintro e ⟨⟩ info hinfo
      obtain ⟨key, q, hget, rfl⟩ := mem_values_report.1 hinfo
      exact normalize_known.2 (hr.known key q hget)
    · rintro e ⟨⟩ hexhausted hnext
      exact (snapshotTime_report hP h hnames hafter hempty).2
        (hr.time hexhausted ((hunset hexhausted).1 hnext))

end Step

/-! ## Runs -/

theorem tracked_start {clock : ℤ} (hclock : 0 ≤ clock) : Tracked P names (.start clock) where
  clock := hclock
  rows := fun _ hmem => absurd hmem not_mem_nil
  fresh := fun _ => rfl
  computed := by rintro e ⟨⟩
  fetched := by rintro e ⟨⟩
  names := by rintro e ⟨⟩
  kept := by rintro e ⟨⟩

theorem mirrored_start (clock : ℤ) : Mirrored P (.start clock) where
  resets := by rintro e ⟨⟩
  known := by rintro e ⟨⟩
  time := by rintro e ⟨⟩

theorem step_after {s t : State} {r : Report} (h : step P s r = some t) :
    r.After s ∧ t = setQuotaCache P s r := by
  rw [step] at h
  split at h
  · next hafter => exact ⟨hafter, (Option.some.inj h).symm⟩
  · cases h

/-- With window names that are told apart, the entry survives a restart after every report of a run
exactly if every report is recorded. -/
theorem survives_iff_recorded (hP : P.Lawful) (hempty : "" ∉ names) (hapart : Apart P names)
    {clock : ℤ} (hclock : 0 ≤ clock) {reports : List Report}
    (hnames : ∀ r ∈ reports, r.Names names) :
    Trace.Throughout (step P) (Survives P) (.start clock) reports ↔
      Trace.Meets (step P) (fun s r => r.Recorded P s) (.start clock) reports := by
  refine Trace.throughout_iff_meets_of (I := Tracked P names) ?_ ?_ hnames (tracked_start hclock)
    ((mirrored_start clock).survives hP (tracked_start hclock) hempty hapart)
  · intro s r t h hr hstep
    obtain ⟨hafter, rfl⟩ := step_after hstep
    exact h.report hr hafter
  · intro s r t h hr hs hstep
    obtain ⟨hafter, rfl⟩ := step_after hstep
    have hiff := mirrored_report_iff hP h (hs.mirrored hP h hempty) hr hafter hempty
    have htracked := h.report (P := P) hr hafter
    constructor
    · exact fun hsurvives => hiff.1 (hsurvives.mirrored hP htracked hempty)
    · exact fun hrecorded => (hiff.2 hrecorded).survives hP htracked hempty hapart

/-- A platform with two dates. -/
def twoDates : Platform where
  parseDate text :=
    if text = "2026-01-01T00:00:00.000Z" then some 1767225600000
    else if text = "2026-01-08T00:00:00.000Z" then some 1767830400000
    else none
  toLowerCase text := String.ofList (text.toList.map Char.toLower)
  collates a b := a ≤ b
  rowOrder names := names

theorem twoDates_lawful : twoDates.Lawful where
  collates_trans a b c hab hbc :=
    decide_eq_true (String.le_trans (of_decide_eq_true hab) (of_decide_eq_true hbc))
  collates_total a b := by
    rcases String.le_total a b with h | h
    · simp [twoDates, h]
    · simp [twoDates, h]
  rowOrder_perm names := List.Perm.refl names

/-- An entry that is used up until the first date. -/
def usedUp : QuotaCacheEntry where
  provider := "codex"
  quotas := .empty
  fetchedAt := 0
  exhausted := true
  nextResetAt := some "2026-01-01T00:00:00.000Z"

theorem asked_unobservable_usedUp :
    (isAccountQuotaExhausted twoDates (asked twoDates (some usedUp) [5, 1767225600001])
      1767225600002).2 = (isAccountQuotaExhausted twoDates (some usedUp) 1767225600002).2 :=
  (asked_unobservable (some usedUp) (by decide)).1

/-- A report of one window. -/
def weekly (now : ℤ) (percentage : ℚ) (resetAt : String) : Report where
  provider := "codex"
  now
  rawQuotas := OrdMap.empty.set "weekly"
    { remainingPercentage := some percentage, resetAt := some resetAt }
  writtenAt _ := now

theorem survives_iff_recorded_weekly : Trace.Throughout (step twoDates) (Survives twoDates)
    (.start 0) [weekly 1 50 "2026-01-01T00:00:00.000Z"] := by
  have hget : ∀ key q, (weekly 1 50 "2026-01-01T00:00:00.000Z").rawQuotas.get key = some q →
      key = "weekly" ∧
        q = { remainingPercentage := some 50, resetAt := some "2026-01-01T00:00:00.000Z" } := by
    intro key q h
    rw [weekly, OrdMap.get_set] at h
    split at h
    · next hkey => exact ⟨hkey, (Option.some.inj h).symm⟩
    · cases h
  have hapart : Apart twoDates ["weekly"] := by
    intro a ha b hb hne
    rw [mem_singleton.1 ha, mem_singleton.1 hb] at hne
    exact absurd rfl hne
  refine (survives_iff_recorded twoDates_lawful (by decide) hapart le_rfl ?_).2 ?_
  · intro r hr
    rw [mem_singleton.1 hr]
    refine ⟨fun key => ?_, fun key q h => ?_⟩
    · rw [show (weekly 1 50 "2026-01-01T00:00:00.000Z").rawQuotas.keys = ["weekly"] from rfl]
    · obtain ⟨-, rfl⟩ := hget key q h
      exact ⟨by decide +kernel, by decide +kernel⟩
  · refine fun t _ => ⟨⟨fun key q h => ?_, fun key q h hunreported => ?_, fun hexhausted => ?_⟩, trivial⟩
    · obtain ⟨-, rfl⟩ := hget key q h
      rw [if_pos (by rfl)]
      decide
    · obtain ⟨-, rfl⟩ := hget key q h
      cases hunreported
    · exact absurd hexhausted (by decide +kernel)

/-- The same percentage with a later reset. -/
def laterReset : List Report :=
  [weekly 1 50 "2026-01-01T00:00:00.000Z", weekly 2 50 "2026-01-08T00:00:00.000Z"]

theorem laterReset_lost : ∃ s, Trace.exec (step twoDates) (.start 0) laterReset = some s ∧
    (s.entry.bind fun e => e.quotas.get "weekly").map QuotaInfo.kept =
      some (50, some "2026-01-08T00:00:00.000Z") ∧
    ((s.rebuilt twoDates 2).bind fun e => e.quotas.get "weekly").map QuotaInfo.kept =
      some (50, some "2026-01-01T00:00:00.000Z") ∧
    ¬Survives twoDates s := by
  have hrun : (Trace.exec (step twoDates) (.start 0) laterReset).any (fun s =>
      (s.entry.bind fun e => e.quotas.get "weekly").map QuotaInfo.kept =
        some (50, some "2026-01-08T00:00:00.000Z") ∧
      ((s.rebuilt twoDates 2).bind fun e => e.quotas.get "weekly").map QuotaInfo.kept =
        some (50, some "2026-01-01T00:00:00.000Z")) = true := by decide +kernel
  obtain ⟨s, hexec, hboth⟩ := (Option.any_eq_true _ _).1 hrun
  obtain ⟨hentry, hrebuilt⟩ := of_decide_eq_true hboth
  refine ⟨s, hexec, hentry, hrebuilt, fun hs => ?_⟩
  have hsame := hs.windows 2 "weekly"
  rw [hentry, hrebuilt] at hsame
  exact absurd hsame (by decide)

end OmniRoute.QuotaCache
