import OmniRoute.QuotaStore.Agreement

/-!
# Laws of the window counter

The rows of `SqliteQuotaStore` after any consumption history. A bucket holds what its key consumed
while it was current (`getBucket_replay`), and everything that `peek` and `poolConsumedTotal` return
is read off the current bucket and the one before.

**Main result (`window_laws`).** While nothing is consumed `peek` does not increase, and after two
windows it is zero; it lies between the consumption of the current bucket and that of both buckets;
and the total of a pool is the sum of `peek` over the keys that consumed.
-/

namespace OmniRoute

open List

/-- A call of `consume` with what `Date.now()` returns in it. -/
structure Consumption (K : Type) where
  apiKeyId : ApiKeyId
  dim : DimensionKey
  cost : K
  nowMs : ℤ

namespace SqliteQuotaStore

section

variable {K : Type} [Field K] [LinearOrder K] [IsStrictOrderedRing K]

/-- The rows after a history. -/
def replay (history : List (Consumption K)) : QuotaConsumption K :=
  history.foldl (fun rows c => (consume rows c.apiKeyId c.dim c.cost c.nowMs).1) .empty

/-- What a key consumed of a dimension in a bucket. -/
def consumedIn (history : List (Consumption K)) (k : ApiKeyId) (dim : DimensionKey) (b : ℤ) : K :=
  (history.map fun c =>
    if c.apiKeyId = k ∧ c.dim = dim ∧ c.nowMs / windowMs dim.window = b then c.cost else 0).sum

/-- The API keys that consumed of a dimension. -/
def consumers (history : List (Consumption K)) (dim : DimensionKey) : List ApiKeyId :=
  ((history.filter fun c => c.dim = dim).map Consumption.apiKeyId).dedup

/-! ## What the rows hold -/

variable {history : List (Consumption K)}

omit [LinearOrder K] [IsStrictOrderedRing K] in
theorem replay_append (c : Consumption K) :
    replay (history ++ [c]) = (consume (replay history) c.apiKeyId c.dim c.cost c.nowMs).1 := by
  rw [replay, foldl_append]
  rfl

theorem getBucket_replay (history : List (Consumption K)) (k : ApiKeyId) (dim : DimensionKey)
    (b : ℤ) : (replay history).getBucket k (dimensionKeyToString dim) b =
      consumedIn history k dim b := by
  induction history using List.reverseRecOn with
  | nil => rfl
  | append_singleton history c ih =>
    have hsum : consumedIn (history ++ [c]) k dim b = consumedIn history k dim b +
        if c.apiKeyId = k ∧ c.dim = dim ∧ c.nowMs / windowMs dim.window = b then c.cost else 0 := by
      simp [consumedIn]
    rw [hsum, replay_append, QuotaConsumption.getBucket, QuotaStores.getBucket_consume]
    by_cases hc : c.apiKeyId = k ∧ c.dim = dim ∧ c.nowMs / windowMs dim.window = b
    · obtain ⟨rfl, rfl, rfl⟩ := id hc
      rw [if_pos rfl, if_pos hc, ← ih]
      rfl
    · have hne : (k, dimensionKeyToString dim, b) ≠ (c.apiKeyId, dimensionKeyToString c.dim,
          c.nowMs / windowMs c.dim.window) := by
        intro heq
        obtain ⟨hk, hrest⟩ := Prod.mk.inj heq
        obtain ⟨hdim, hb⟩ := Prod.mk.inj hrest
        obtain rfl := dimensionKeyToString_inj hdim
        exact hc ⟨hk.symm, rfl, hb.symm⟩
      rw [if_neg hne, if_neg hc, add_zero]
      exact ih

/-- A row of a dimension is that of a key that consumed. -/
theorem mem_consumers_of_row {k : ApiKeyId} {dim : DimensionKey} {b : ℤ}
    (h : (replay history).get (k, dimensionKeyToString dim, b) ≠ none) :
    k ∈ consumers history dim := by
  induction history using List.reverseRecOn with
  | nil => exact absurd rfl h
  | append_singleton history c ih =>
    unfold consumers
    rw [mem_dedup, mem_map]
    rw [replay_append, QuotaStores.getBucket_consume] at h
    by_cases heq : (k, dimensionKeyToString dim, b) = (c.apiKeyId, dimensionKeyToString c.dim,
        c.nowMs / windowMs c.dim.window)
    · obtain ⟨hk, hrest⟩ := Prod.mk.inj heq
      obtain rfl := dimensionKeyToString_inj (Prod.mk.inj hrest).1
      exact ⟨c, mem_filter.2 ⟨mem_append_right _ mem_cons_self, decide_eq_true rfl⟩, hk.symm⟩
    · rw [if_neg heq] at h
      have hmem := ih h
      unfold consumers at hmem
      rw [mem_dedup, mem_map] at hmem
      obtain ⟨c', hc', rfl⟩ := hmem
      rw [mem_filter] at hc'
      exact ⟨c', mem_filter.2 ⟨mem_append_left _ hc'.1, hc'.2⟩, rfl⟩

theorem sumBucket_replay (dim : DimensionKey) (b : ℤ) :
    (replay history).sumBucket (dimensionKeyToString dim) b =
      ((consumers history dim).map fun k => consumedIn history k dim b).sum := by
  have houtside : (replay history).outside (consumers history dim) (dimensionKeyToString dim) b =
      0 := by
    apply OrdMap.tally_eq_zero
    intro p hp
    by_cases hcond : p.1.2 = (dimensionKeyToString dim, b) ∧ p.1.1 ∉ consumers history dim
    · have hget : (replay history).get (p.1.1, dimensionKeyToString dim, b) = some p.2 := by
        rw [OrdMap.get_eq_some, ← hcond.1]
        exact hp
      exact absurd (mem_consumers_of_row (by rw [hget]; exact nofun)) hcond.2
    · rw [if_neg hcond]
  have hnodup : (consumers history dim).Nodup := nodup_dedup _
  rw [QuotaConsumption.sumBucket_eq _ hnodup, houtside, add_zero]
  exact congrArg List.sum (map_congr_left fun k _ => getBucket_replay _ _ _ _)

theorem peek_replay (history : List (Consumption K)) (k : ApiKeyId) (dim : DimensionKey)
    (nowMs : ℤ) : peek (replay history) k dim nowMs =
      slidingWindowEffective (consumedIn history k dim (nowMs / windowMs dim.window))
        (consumedIn history k dim (nowMs / windowMs dim.window - 1)) nowMs (windowMs dim.window) := by
  rw [peek, getBucket_replay, getBucket_replay]

theorem poolConsumedTotal_replay (history : List (Consumption K)) (dim : DimensionKey)
    (nowMs : ℤ) : poolConsumedTotal (replay history) dim nowMs =
      ((consumers history dim).map fun k => peek (replay history) k dim nowMs).sum := by
  rw [poolConsumedTotal, sumBucket_replay, sumBucket_replay]
  induction consumers history dim with
  | nil => simp [slidingWindowEffective_eq]
  | cons k ks ih =>
    rw [map_cons, map_cons, map_cons, sum_cons, sum_cons, sum_cons,
      slidingWindowEffective_add, ih, peek_replay]

/-! ## The window -/

omit [LinearOrder K] [IsStrictOrderedRing K] in
/-- A bucket that no time of the history lies in is empty. -/
theorem consumedIn_eq_zero {k : ApiKeyId} {dim : DimensionKey} {b : ℤ}
    (h : ∀ c ∈ history, c.apiKeyId = k → c.dim = dim → c.nowMs / windowMs dim.window ≠ b) :
    consumedIn history k dim b = 0 := by
  refine sum_eq_zero fun x hx => ?_
  obtain ⟨c, hc, rfl⟩ := mem_map.1 hx
  exact if_neg fun hcond => h c hc hcond.1 hcond.2.1 hcond.2.2

theorem consumedIn_nonneg (hcost : ∀ c ∈ history, 0 ≤ c.cost) (k : ApiKeyId) (dim : DimensionKey)
    (b : ℤ) : 0 ≤ consumedIn history k dim b := by
  refine sum_nonneg fun x hx => ?_
  obtain ⟨c, hc, rfl⟩ := mem_map.1 hx
  split
  · exact hcost c hc
  · exact le_rfl

theorem weight_le_one (nowMs : ℤ) {windowMs : ℤ} (hpos : 0 < windowMs) :
    weight K nowMs windowMs ≤ 1 := by
  have hle := current_le nowMs hpos
  have hcast : (0 : K) < (windowMs : K) := Int.cast_pos.2 hpos
  unfold weight
  rw [sub_le_self_iff]
  refine div_nonneg ?_ hcast.le
  rw [Int.cast_nonneg_iff]
  linarith

/-- Within a bucket the weight of the previous one decreases. -/
theorem weight_antitone {nowMs nowMs' windowMs : ℤ} (hpos : 0 < windowMs) (hle : nowMs ≤ nowMs')
    (hsame : nowMs' / windowMs = nowMs / windowMs) :
    weight K nowMs' windowMs ≤ weight K nowMs windowMs := by
  have hcast : (0 : K) < (windowMs : K) := Int.cast_pos.2 hpos
  unfold weight
  rw [hsame]
  refine sub_le_sub_left ((div_le_div_iff_of_pos_right hcast).2 ?_) 1
  rw [Int.cast_le]
  linarith

theorem peek_bounds (hcost : ∀ c ∈ history, 0 ≤ c.cost) (k : ApiKeyId) (dim : DimensionKey)
    (nowMs : ℤ) :
    consumedIn history k dim (nowMs / windowMs dim.window) ≤ peek (replay history) k dim nowMs ∧
    peek (replay history) k dim nowMs ≤ consumedIn history k dim (nowMs / windowMs dim.window) +
      consumedIn history k dim (nowMs / windowMs dim.window - 1) := by
  have hprev := consumedIn_nonneg hcost k dim (nowMs / windowMs dim.window - 1)
  have hpos : 0 < weight K nowMs (windowMs dim.window) := weight_pos nowMs (windowMs_pos _)
  have hone : weight K nowMs (windowMs dim.window) ≤ 1 := weight_le_one nowMs (windowMs_pos _)
  rw [peek_replay, slidingWindowEffective_eq]
  constructor
  · exact le_add_of_nonneg_left (mul_nonneg hprev hpos.le)
  · rw [add_comm]
    exact add_le_add_right (mul_le_of_le_one_right hprev hone) _

theorem peek_antitone (hcost : ∀ c ∈ history, 0 ≤ c.cost) {nowMs nowMs' : ℤ}
    (hpast : ∀ c ∈ history, c.nowMs ≤ nowMs) (hle : nowMs ≤ nowMs') (k : ApiKeyId)
    (dim : DimensionKey) :
    peek (replay history) k dim nowMs' ≤ peek (replay history) k dim nowMs := by
  have hwindow := windowMs_pos dim.window
  have hbucket : nowMs / windowMs dim.window ≤ nowMs' / windowMs dim.window :=
    Int.ediv_le_ediv hwindow hle
  have hfuture : ∀ b, nowMs / windowMs dim.window < b → consumedIn history k dim b = 0 := by
    intro b hb
    refine consumedIn_eq_zero fun c hc _ _ heq => ?_
    have hc := Int.ediv_le_ediv hwindow (hpast c hc)
    omega
  rcases hbucket.eq_or_lt with hsame | hlater
  · rw [peek_replay, peek_replay, slidingWindowEffective_eq, slidingWindowEffective_eq, ← hsame]
    refine add_le_add_left (mul_le_mul_of_nonneg_left ?_ (consumedIn_nonneg hcost _ _ _)) _
    exact weight_antitone hwindow hle hsame.symm
  · have hcurr := hfuture _ hlater
    rcases (Int.add_one_le_iff.2 hlater).eq_or_lt with hnext | hskipped
    · -- the bucket that was current is the previous one now
      have hbound := (peek_bounds hcost k dim nowMs').2
      rw [hcurr, zero_add, ← hnext, add_sub_cancel_right] at hbound
      exact hbound.trans (peek_bounds hcost k dim nowMs).1
    · have hprev := hfuture (nowMs' / windowMs dim.window - 1) (by omega)
      have hzero : peek (replay history) k dim nowMs' = 0 := by
        rw [peek_replay, hcurr, hprev, slidingWindowEffective_eq, zero_mul, zero_add]
      rw [hzero]
      exact (consumedIn_nonneg hcost _ _ _).trans (peek_bounds hcost k dim nowMs).1

theorem peek_eq_zero {nowMs : ℤ} {k : ApiKeyId} {dim : DimensionKey}
    (hquiet : ∀ c ∈ history, c.apiKeyId = k → c.dim = dim →
      c.nowMs + 2 * windowMs dim.window ≤ nowMs) :
    peek (replay history) k dim nowMs = 0 := by
  have hold : ∀ b, nowMs / windowMs dim.window - 1 ≤ b → consumedIn history k dim b = 0 := by
    intro b hb
    refine consumedIn_eq_zero fun c hc hk hdim heq => ?_
    have hpos := windowMs_pos dim.window
    have hle := Int.ediv_le_ediv hpos (hquiet c hc hk hdim)
    rw [Int.add_mul_ediv_right _ _ hpos.ne'] at hle
    omega
  rw [peek_replay, hold _ (by omega), hold _ le_rfl, slidingWindowEffective_eq, zero_mul, zero_add]

end

theorem window_laws {K : Type} [Field K] [LinearOrder K] [IsStrictOrderedRing K]
    (history : List (Consumption K)) (hcost : ∀ c ∈ history, 0 ≤ c.cost) (k : ApiKeyId)
    (dim : DimensionKey) :
    (∀ nowMs nowMs', (∀ c ∈ history, c.nowMs ≤ nowMs) → nowMs ≤ nowMs' →
      peek (replay history) k dim nowMs' ≤ peek (replay history) k dim nowMs) ∧
    (∀ nowMs, (∀ c ∈ history, c.apiKeyId = k → c.dim = dim →
      c.nowMs + 2 * windowMs dim.window ≤ nowMs) → peek (replay history) k dim nowMs = 0) ∧
    (∀ nowMs,
      consumedIn history k dim (nowMs / windowMs dim.window) ≤ peek (replay history) k dim nowMs ∧
      peek (replay history) k dim nowMs ≤ consumedIn history k dim (nowMs / windowMs dim.window) +
        consumedIn history k dim (nowMs / windowMs dim.window - 1)) ∧
    ∀ nowMs, poolConsumedTotal (replay history) dim nowMs =
      ((consumers history dim).map fun k => peek (replay history) k dim nowMs).sum :=
  ⟨fun _ _ hpast hle => peek_antitone hcost hpast hle k dim, fun _ hquiet => peek_eq_zero hquiet,
    fun nowMs => peek_bounds hcost k dim nowMs,
    fun nowMs => poolConsumedTotal_replay history dim nowMs⟩

/-- One request at the start of an hour, and a look half an hour into the next. -/
theorem window_laws_halfHour :
    peek (replay [⟨⟨"key", by decide⟩, ⟨"pool", .requests, .hourly⟩, (4 : ℚ), 0⟩])
        ⟨"key", by decide⟩ ⟨"pool", .requests, .hourly⟩ 5400000 ≤
      peek (replay [⟨⟨"key", by decide⟩, ⟨"pool", .requests, .hourly⟩, (4 : ℚ), 0⟩])
        ⟨"key", by decide⟩ ⟨"pool", .requests, .hourly⟩ 0 :=
  (window_laws [⟨⟨"key", by decide⟩, ⟨"pool", .requests, .hourly⟩, (4 : ℚ), 0⟩] (by simp)
    ⟨"key", by decide⟩ ⟨"pool", .requests, .hourly⟩).1 0 5400000 (by simp) (by decide)

end SqliteQuotaStore

end OmniRoute
