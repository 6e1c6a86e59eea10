import OmniRoute.Lib.Trace
import OmniRoute.QuotaStore.Drivers

/-!
# Agreement of the quota stores

The counter of a bucket lives at least until the bucket has left the sliding window, so for a key
both stores read the same. For a pool SQLite sums the rows of all keys and Redis the counters of
the keys with an allocation.

**Main result (`stores_agree_iff`).** The stores agree throughout a run exactly when only the keys of a
pool consume of it, and no key whose consumption still counts is removed from it.
-/

set_option linter.unusedSectionVars false

namespace OmniRoute

open List Option OrdMap Delimited RedisQuotaStore

/-! ## Keys -/

theorem colon_notMem_unit (unit : QuotaUnit) : ':' ∉ unit.text.toList := by
  cases unit <;> decide

theorem colon_notMem_window (window : QuotaWindow) : ':' ∉ window.text.toList := by
  cases window <;> decide

theorem QuotaUnit.text_inj {unit unit' : QuotaUnit}
    (h : unit.text.toList = unit'.text.toList) : unit = unit' := by
  cases unit <;> cases unit' <;> first | rfl | exact absurd h (by decide)

theorem QuotaWindow.text_inj {window window' : QuotaWindow}
    (h : window.text.toList = window'.text.toList) : window = window' := by
  cases window <;> cases window' <;> first | rfl | exact absurd h (by decide)

theorem dimensionKeyToString_inj {k k' : DimensionKey}
    (h : dimensionKeyToString k = dimensionKeyToString k') : k = k' := by
  have htext : ∀ k : DimensionKey, (dimensionKeyToString k).toList =
      (k.poolId.toList ++ ':' :: k.unit.text.toList) ++ ':' :: k.window.text.toList := by
    intro k
    simp [dimensionKeyToString]
  have hlist := congrArg String.toList h
  rw [htext, htext] at hlist
  obtain ⟨hrest, hwindow⟩ := append_sep_right (colon_notMem_window k.window)
    (colon_notMem_window k'.window) hlist
  obtain ⟨hpool, hunit⟩ := append_sep_right (colon_notMem_unit k.unit)
    (colon_notMem_unit k'.unit) hrest
  obtain ⟨poolId, unit, window⟩ := k
  obtain ⟨poolId', unit', window'⟩ := k'
  obtain rfl := String.toList_inj.1 hpool
  obtain rfl := QuotaUnit.text_inj hunit
  obtain rfl := QuotaWindow.text_inj hwindow
  rfl

/-- The Redis keys are as good as the primary key of the table. -/
theorem bucketKey_inj {k k' : ApiKeyId} {d d' : String} {b b' : ℤ}
    (h : bucketKey k d b = bucketKey k' d' b') :
    k = k' ∧ d = d' ∧ b = b' := by
  have htext : ∀ (k : ApiKeyId) (d : String) (b : ℤ),
      (bucketKey k d b).toList = keyPrefix.toList ++
        ':' :: (k.1.toList ++ ':' :: (d.toList ++ ':' :: (toString b).toList)) := by
    intro k d b
    simp [bucketKey]
  have hnum : ∀ b : ℤ, ':' ∉ (toString b).toList := by
    intro b hmem
    rcases mem_int hmem with hdigit | hminus
    · exact absurd hdigit (by decide)
    · exact absurd hminus (by decide)
  have hlist := congrArg String.toList h
  rw [htext, htext] at hlist
  have hrest := (List.cons.inj (append_cancel_left hlist)).2
  obtain ⟨hk, hrest⟩ := append_sep_left k.2 k'.2 hrest
  obtain ⟨hd, hb⟩ := append_sep_right (hnum b) (hnum b') hrest
  exact ⟨Subtype.ext (String.toList_inj.1 hk), String.toList_inj.1 hd,
    toString_int_inj (String.toList_inj.1 hb)⟩

/-! ## The window -/

theorem windowMs_pos (window : QuotaWindow) : 0 < windowMs window := by
  cases window <;> decide

/-- A bucket counts until the next one is over. -/
theorem lt_current (nowMs : ℤ) {windowMs : ℤ} (hpos : 0 < windowMs) :
    nowMs < (nowMs / windowMs + 1) * windowMs := Int.lt_ediv_add_one_mul_self nowMs hpos

theorem current_le (nowMs : ℤ) {windowMs : ℤ} (hpos : 0 < windowMs) :
    nowMs / windowMs * windowMs ≤ nowMs := Int.ediv_mul_le nowMs hpos.ne'

section

variable {K : Type} [Field K] [LinearOrder K] [IsStrictOrderedRing K]

/-- The weight of the previous bucket. -/
def weight (K : Type) [Field K] (nowMs windowMs : ℤ) : K :=
  1 - ((nowMs - nowMs / windowMs * windowMs : ℤ) : K) / (windowMs : K)

theorem slidingWindowEffective_eq (curr prev : K) (nowMs windowMs : ℤ) :
    slidingWindowEffective curr prev nowMs windowMs = prev * weight K nowMs windowMs + curr := rfl

theorem weight_pos (nowMs : ℤ) {windowMs : ℤ} (hpos : 0 < windowMs) :
    0 < weight K nowMs windowMs := by
  have hlt := lt_current nowMs hpos
  have hcast : (0 : K) < (windowMs : K) := Int.cast_pos.2 hpos
  unfold weight
  rw [sub_pos, div_lt_one hcast, Int.cast_lt]
  linarith

theorem slidingWindowEffective_add (curr curr' prev prev' : K) (nowMs windowMs : ℤ) :
    slidingWindowEffective (curr + curr') (prev + prev') nowMs windowMs =
      slidingWindowEffective curr prev nowMs windowMs +
        slidingWindowEffective curr' prev' nowMs windowMs := by
  rw [slidingWindowEffective_eq, slidingWindowEffective_eq, slidingWindowEffective_eq]
  ring

/-- Nothing counts exactly when both buckets are empty. -/
theorem slidingWindowEffective_eq_zero {curr prev : K} {nowMs windowMs : ℤ} (hpos : 0 < windowMs)
    (hcurr : 0 ≤ curr) (hprev : 0 ≤ prev) :
    slidingWindowEffective curr prev nowMs windowMs = 0 ↔ curr = 0 ∧ prev = 0 := by
  have hweight : 0 < weight K nowMs windowMs := weight_pos nowMs hpos
  rw [slidingWindowEffective_eq, add_eq_zero_iff_of_nonneg (mul_nonneg hprev hweight.le) hcurr,
    mul_eq_zero, or_iff_left hweight.ne', and_comm]

/-! ## Rows -/

namespace QuotaConsumption

/-- Only positive amounts have been consumed. -/
def Positive (rows : QuotaConsumption K) : Prop := ∀ p ∈ rows.entries, 0 < p.2.consumed

variable {rows : QuotaConsumption K}

theorem Positive.getBucket_nonneg (h : Positive rows) (k : ApiKeyId) (d : String) (b : ℤ) :
    0 ≤ rows.getBucket k d b := by
  unfold getBucket
  cases hget : rows.get (k, d, b) with
  | none => exact le_rfl
  | some row => exact (h _ (get_eq_some.1 hget)).le

/-- What the keys other than `ks` have consumed. -/
def outside (rows : QuotaConsumption K) (ks : List ApiKeyId) (d : String) (b : ℤ) : K :=
  rows.tally fun row => if row.1.2 = (d, b) ∧ row.1.1 ∉ ks then row.2.consumed else 0

/-- The sum over a bucket, with the part of some keys set apart. -/
theorem sumBucket_eq (rows : QuotaConsumption K) {ks : List ApiKeyId} (hks : ks.Nodup)
    (d : String) (b : ℤ) :
    rows.sumBucket d b = (ks.map fun k => rows.getBucket k d b).sum + rows.outside ks d b := by
  induction ks with
  | nil =>
    unfold sumBucket outside
    simp
  | cons k ks ih =>
    obtain ⟨hk, hks⟩ := nodup_cons.1 hks
    have hstep : rows.outside ks d b = rows.getBucket k d b + rows.outside (k :: ks) d b := by
      have hsame : ∀ p : (ApiKeyId × String × ℤ) × ConsumptionRow K, p.1 ≠ (k, d, b) →
          (if p.1.2 = (d, b) ∧ p.1.1 ∉ ks then p.2.consumed else 0) =
            if p.1.2 = (d, b) ∧ p.1.1 ∉ k :: ks then p.2.consumed else 0 := by
        intro p hne
        by_cases hcond : p.1.2 = (d, b) ∧ p.1.1 ∉ ks
        · rw [if_pos hcond, if_pos]
          refine ⟨hcond.1, ?_⟩
          rw [mem_cons, not_or]
          exact ⟨fun heq => hne (Prod.ext heq hcond.1), hcond.2⟩
        · rw [if_neg hcond, if_neg]
          intro h
          exact hcond ⟨h.1, fun hmem => h.2 (mem_cons_of_mem _ hmem)⟩
      have hrest : ∀ m : QuotaConsumption K, m.get (k, d, b) = none →
          m.outside ks d b = m.outside (k :: ks) d b := by
        intro m hnone
        unfold outside OrdMap.tally
        congr 1
        apply map_congr_left
        intro p hp
        apply hsame
        intro heq
        apply get_eq_none.1 hnone
        rw [← heq]
        exact List.mem_map_of_mem hp
      unfold getBucket
      cases hget : rows.get (k, d, b) with
      | none =>
        rw [hrest rows hget]
        simp
      | some row =>
        have hdelete := hrest (rows.delete (k, d, b)) (get_delete_self _ _)
        unfold outside at hdelete ⊢
        rw [tally_get hget, tally_get hget, hdelete]
        simp [hk]
    rw [ih hks, hstep, map_cons, sum_cons]
    ring

theorem Positive.outside_nonneg (h : Positive rows) (ks : List ApiKeyId) (d : String) (b : ℤ) :
    0 ≤ rows.outside ks d b := by
  apply sum_nonneg
  intro x hx
  obtain ⟨p, hp, rfl⟩ := List.mem_map.1 hx
  split
  · exact (h p hp).le
  · exact le_rfl

theorem Positive.outside_eq_zero (h : Positive rows) {ks : List ApiKeyId} {d : String} {b : ℤ} :
    rows.outside ks d b = 0 ↔ ∀ k, k ∉ ks → rows.getBucket k d b = 0 := by
  constructor
  · intro hzero k hk
    unfold getBucket
    cases hget : rows.get (k, d, b) with
    | none => rfl
    | some row =>
      have hpos := h _ (get_eq_some.1 hget)
      have hrest : Positive (rows.delete (k, d, b)) :=
        fun p hp => h p (mem_of_mem_delete hp)
      have hnonneg := hrest.outside_nonneg ks d b
      unfold outside at hzero hnonneg
      rw [tally_get hget] at hzero
      simp only [hk, not_false_eq_true, and_self, if_true] at hzero
      linarith
  · intro hall
    apply tally_eq_zero
    intro p hp
    split
    · next hcond =>
      have hget : rows.get (p.1.1, d, b) = some p.2 := by
        rw [get_eq_some, ← hcond.1]
        exact hp
      have hzero := hall p.1.1 hcond.2
      unfold getBucket at hzero
      rw [hget] at hzero
      exact hzero
    · rfl

end QuotaConsumption

/-! ## Both stores -/

namespace QuotaStores

variable {s : QuotaStores K}

/-- As long as a bucket counts, the row and the counter of it hold the same amount, and the
counter outlives the bucket. -/
structure Mirrored (s : QuotaStores K) : Prop where
  positive : QuotaConsumption.Positive s.rows
  stamped : ∀ k dim b row, s.rows.get (k, dimensionKeyToString dim, b) = some row →
    row.windowMs = windowMs dim.window ∧ b * windowMs dim.window ≤ row.updatedAt ∧
      row.updatedAt ≤ s.now
  same : ∀ k dim b, s.now < (b + 2) * windowMs dim.window →
    (s.rows.get (k, dimensionKeyToString dim, b)).map ConsumptionRow.consumed =
      (s.redis.get (bucketKey k (dimensionKeyToString dim) b)).map
        RedisCounter.value
  lives : ∀ k dim b counter, s.now < (b + 2) * windowMs dim.window →
    s.redis.get (bucketKey k (dimensionKeyToString dim) b) = some counter →
      ∃ e, counter.expireAtMs = some e ∧ (b + 2) * windowMs dim.window ≤ e

theorem Mirrored.lookup (h : Mirrored s) {k : ApiKeyId} {dim : DimensionKey} {b : ℤ}
    (hb : s.now < (b + 2) * windowMs dim.window) :
    s.redis.lookup (bucketKey k (dimensionKeyToString dim) b) s.now =
      s.redis.get (bucketKey k (dimensionKeyToString dim) b) := by
  unfold RedisDb.lookup
  cases hget : s.redis.get (bucketKey k (dimensionKeyToString dim) b) with
  | none => rfl
  | some counter =>
    obtain ⟨e, he, hle⟩ := h.lives k dim b counter hb hget
    rw [filter_some, he, all_some, if_pos]
    exact decide_eq_true (lt_of_lt_of_le hb hle)

theorem Mirrored.read (h : Mirrored s) {k : ApiKeyId} {dim : DimensionKey} {b : ℤ}
    (hb : s.now < (b + 2) * windowMs dim.window) :
    s.redis.read (bucketKey k (dimensionKeyToString dim) b) s.now =
      s.rows.getBucket k (dimensionKeyToString dim) b := by
  unfold RedisDb.read QuotaConsumption.getBucket
  rw [h.lookup hb, h.same k dim b hb]

/-- The current bucket and the one before it count. -/
theorem counts (s : QuotaStores K) (dim : DimensionKey) :
    s.now < (s.now / windowMs dim.window + 2) * windowMs dim.window ∧
      s.now < (s.now / windowMs dim.window - 1 + 2) * windowMs dim.window := by
  have hpos := windowMs_pos dim.window
  have hlt := lt_current s.now hpos
  constructor
  · linarith
  · linarith

theorem Mirrored.peek (h : Mirrored s) (k : ApiKeyId) (dim : DimensionKey) :
    SqliteQuotaStore.peek s.rows k dim s.now = RedisQuotaStore.peek s.redis k dim s.now := by
  obtain ⟨hcurr, hprev⟩ := counts s dim
  unfold SqliteQuotaStore.peek RedisQuotaStore.peek
  dsimp only
  rw [h.read hcurr, h.read hprev]

/-- Every key that still counts for a pool has an allocation in it. -/
def Inside (s : QuotaStores K) : Prop :=
  ∀ (dim : DimensionKey) (allocations : Allocations), s.pool dim.poolId = some allocations →
    ∀ k, k ∉ allocations.1 → SqliteQuotaStore.peek s.rows k dim s.now = 0

/-- What SQLite sums and Redis does not. -/
theorem Mirrored.poolConsumedTotal (h : Mirrored s) (dim : DimensionKey)
    (allocations : Allocations) :
    SqliteQuotaStore.poolConsumedTotal s.rows dim s.now =
      RedisQuotaStore.poolConsumedTotal s.redis (some allocations) dim s.now +
        slidingWindowEffective
          (s.rows.outside allocations.1 (dimensionKeyToString dim) (s.now / windowMs dim.window))
          (s.rows.outside allocations.1 (dimensionKeyToString dim)
            (s.now / windowMs dim.window - 1)) s.now (windowMs dim.window) := by
  obtain ⟨hcurr, hprev⟩ := counts s dim
  have hredis : RedisQuotaStore.poolConsumedTotal s.redis (some allocations) dim s.now =
      slidingWindowEffective
        (allocations.1.map fun k => s.rows.getBucket k (dimensionKeyToString dim)
          (s.now / windowMs dim.window)).sum
        (allocations.1.map fun k => s.rows.getBucket k (dimensionKeyToString dim)
          (s.now / windowMs dim.window - 1)).sum s.now (windowMs dim.window) := by
    unfold RedisQuotaStore.poolConsumedTotal
    dsimp only
    simp only [h.read hcurr, h.read hprev]
    split
    · next hzero =>
      rw [eq_nil_of_length_eq_zero hzero]
      simp [slidingWindowEffective_eq]
    · rfl
  unfold SqliteQuotaStore.poolConsumedTotal
  dsimp only
  rw [hredis, s.rows.sumBucket_eq allocations.2, s.rows.sumBucket_eq allocations.2,
    slidingWindowEffective_add]

theorem Mirrored.peek_eq_zero (h : Mirrored s) (k : ApiKeyId) (dim : DimensionKey) :
    SqliteQuotaStore.peek s.rows k dim s.now = 0 ↔
      s.rows.getBucket k (dimensionKeyToString dim) (s.now / windowMs dim.window) = 0 ∧
        s.rows.getBucket k (dimensionKeyToString dim) (s.now / windowMs dim.window - 1) = 0 :=
  slidingWindowEffective_eq_zero (windowMs_pos dim.window) (h.positive.getBucket_nonneg _ _ _)
    (h.positive.getBucket_nonneg _ _ _)

/-- The stores agree exactly when no key outside a pool counts for it. -/
theorem Mirrored.agree_iff (h : Mirrored s) : Agree s ↔ Inside s := by
  have hpool : ∀ (dim : DimensionKey) (allocations : Allocations),
      SqliteQuotaStore.poolConsumedTotal s.rows dim s.now =
        RedisQuotaStore.poolConsumedTotal s.redis (some allocations) dim s.now ↔
      ∀ k, k ∉ allocations.1 → SqliteQuotaStore.peek s.rows k dim s.now = 0 := by
    intro dim allocations
    rw [h.poolConsumedTotal dim allocations, add_eq_left,
      slidingWindowEffective_eq_zero (windowMs_pos dim.window) (h.positive.outside_nonneg _ _ _)
        (h.positive.outside_nonneg _ _ _), h.positive.outside_eq_zero, h.positive.outside_eq_zero,
      ← forall₂_and]
    exact forall₂_congr fun k _ => (h.peek_eq_zero k dim).symm
  constructor
  · intro hagree dim allocations hget
    have htotal := hagree.2 dim (by rw [hget]; exact some_ne_none _)
    rw [hget] at htotal
    exact (hpool dim allocations).1 htotal
  · intro hinside
    refine ⟨fun k dim => h.peek k dim, ?_⟩
    intro dim hne
    obtain ⟨allocations, hget⟩ := ne_none_iff_exists'.1 hne
    rw [hget]
    exact (hpool dim allocations).2 (hinside dim allocations hget)

/-! ## What the operations do -/

end QuotaStores

namespace RedisDb

theorem lookup_set_self (db : RedisDb K) (key : String) (counter : RedisCounter K) {nowMs : ℤ}
    (h : counter.expireAtMs.all (nowMs < ·) = true) :
    RedisDb.lookup (db.set key counter) key nowMs = some counter := by
  unfold lookup
  rw [OrdMap.get_set_self, filter_some, if_pos h]

theorem get_expire (db : RedisDb K) (key : String) (seconds nowMs : ℤ) (key' : String) :
    (db.expire key seconds nowMs).get key' =
      match db.lookup key nowMs with
      | none => db.get key'
      | some counter => if key' = key then
          some { counter with expireAtMs := some (nowMs + seconds * 1000) } else db.get key' := by
  unfold expire
  cases db.lookup key nowMs with
  | none => rfl
  | some counter => exact get_set _ _ _ _

/-- A counter after its increment, with a new time to live. -/
theorem get_expire_incrbyfloat (db : RedisDb K) (key : String) (value : K) (seconds nowMs : ℤ)
    (key' : String) :
    ((db.incrbyfloat key value nowMs).1.expire key seconds nowMs).get key' =
      if key' = key then some ⟨db.read key nowMs + value, some (nowMs + seconds * 1000)⟩
      else db.get key' := by
  rw [get_expire]
  unfold incrbyfloat read
  cases hlookup : db.lookup key nowMs with
  | none =>
    dsimp only
    rw [lookup_set_self db key ⟨value, none⟩ rfl]
    dsimp only
    rw [get_set]
    split
    · simp
    · rfl
  | some counter =>
    have halive : counter.expireAtMs.all (nowMs < ·) = true := by
      unfold lookup at hlookup
      exact (filter_eq_some_iff.1 hlookup).2
    dsimp only
    rw [lookup_set_self db key { counter with value := counter.value + value } halive]
    dsimp only
    rw [get_set]
    split
    · rfl
    · rfl

end RedisDb

theorem two_windows_le_ttl (windowMs : ℤ) : 2 * windowMs ≤ ttlSeconds windowMs * 1000 := by
  unfold ttlSeconds
  omega

namespace QuotaStores

variable {s : QuotaStores K}

theorem getBucket_consume (rows : QuotaConsumption K) (k : ApiKeyId) (dim : DimensionKey)
    (cost : K) (nowMs : ℤ) (k' : ApiKeyId) (d : String) (b : ℤ) :
    (SqliteQuotaStore.consume rows k dim cost nowMs).1.get (k', d, b) =
      if (k', d, b) = (k, dimensionKeyToString dim, nowMs / windowMs dim.window) then
        some ⟨rows.getBucket k (dimensionKeyToString dim) (nowMs / windowMs dim.window) + cost,
          nowMs, windowMs dim.window⟩
      else rows.get (k', d, b) :=
  get_set _ _ _ _

section

variable (h : Mirrored s)
include h

theorem Mirrored.get_consume (k : ApiKeyId) (dim : DimensionKey) (cost : K)
    (k' : ApiKeyId) (d : String) (b : ℤ) :
    (RedisQuotaStore.consume s.redis k dim cost s.now).1.get (bucketKey k' d b) =
      if (k', d, b) = (k, dimensionKeyToString dim, s.now / windowMs dim.window) then
        some ⟨s.rows.getBucket k (dimensionKeyToString dim) (s.now / windowMs dim.window) + cost,
          some (s.now + ttlSeconds (windowMs dim.window) * 1000)⟩
      else if (k', d, b) = (k, dimensionKeyToString dim, s.now / windowMs dim.window - 1) then
        (s.redis.get (bucketKey k' d b)).map fun counter => { counter with
          expireAtMs := some (s.now + ttlSeconds (windowMs dim.window) * 1000) }
      else s.redis.get (bucketKey k' d b) := by
  have hkey : ∀ b', bucketKey k' d b =
      bucketKey k (dimensionKeyToString dim) b' ↔
        (k', d, b) = (k, dimensionKeyToString dim, b') := by
    intro b'
    constructor
    · intro heq
      obtain ⟨rfl, rfl, rfl⟩ := bucketKey_inj heq
      rfl
    · intro heq
      obtain ⟨rfl, rfl, rfl⟩ := heq
      rfl
  obtain ⟨hcurr, hprev⟩ := counts s dim
  have hread := h.read (k := k) hcurr
  unfold RedisQuotaStore.consume
  dsimp only
  rw [RedisDb.get_expire, RedisDb.get_expire_incrbyfloat, hread]
  simp only [hkey]
  -- the previous counter is found, if it is there, and is another one than the current
  have hother : ¬ bucketKey k (dimensionKeyToString dim)
      (s.now / windowMs dim.window - 1) = bucketKey k (dimensionKeyToString dim)
        (s.now / windowMs dim.window) := by
    intro heq
    have hb := (bucketKey_inj heq).2.2
    omega
  have hlive := h.lookup (k := k) hprev
  generalize hprevious : bucketKey k (dimensionKeyToString dim)
    (s.now / windowMs dim.window - 1) = previous at hlive hother ⊢
  have hlookup : ∀ db : RedisDb K, db.get previous = s.redis.get previous →
      db.lookup previous s.now = s.redis.get previous := by
    intro db hget
    rw [← hlive]
    unfold RedisDb.lookup
    rw [hget]
  rw [hlookup _ (by rw [RedisDb.get_expire_incrbyfloat, if_neg hother])]
  by_cases hcur : (k', d, b) = (k, dimensionKeyToString dim, s.now / windowMs dim.window)
  · have hne : ¬ (k', d, b) =
        (k, dimensionKeyToString dim, s.now / windowMs dim.window - 1) := by
      intro heq
      have hb := (Prod.mk.inj (Prod.mk.inj (hcur.symm.trans heq)).2).2
      omega
    rw [if_pos hcur, if_pos hcur]
    cases s.redis.get previous with
    | none => rfl
    | some counter => exact if_neg hne
  · rw [if_neg hcur, if_neg hcur]
    by_cases hpre : (k', d, b) = (k, dimensionKeyToString dim, s.now / windowMs dim.window - 1)
    · rw [if_pos hpre, (hkey _).2 hpre, hprevious]
      cases s.redis.get previous with
      | none => rfl
      | some counter => exact if_pos hpre
    · rw [if_neg hpre]
      cases s.redis.get previous with
      | none => rfl
      | some counter => exact if_neg hpre

theorem Mirrored.consume (k : ApiKeyId) (dim : DimensionKey) {cost : K} (hcost : 0 < cost) :
    Mirrored { s with
      rows := (SqliteQuotaStore.consume s.rows k dim cost s.now).1
      redis := (RedisQuotaStore.consume s.redis k dim cost s.now).1 } := by
  have hpos := windowMs_pos dim.window
  have hle := current_le s.now hpos
  have httl := two_windows_le_ttl (windowMs dim.window)
  refine ⟨?_, ?_, ?_, ?_⟩
  · intro p hp
    rcases mem_set hp with rfl | hp
    · exact add_pos_of_nonneg_of_pos (h.positive.getBucket_nonneg _ _ _) hcost
    · exact h.positive p hp
  · intro k' dim' b row hget
    dsimp only at hget ⊢
    rw [getBucket_consume] at hget
    split at hget
    · next heq =>
      have hb : b = s.now / windowMs dim.window := (Prod.mk.inj (Prod.mk.inj heq).2).2
      obtain rfl := dimensionKeyToString_inj (Prod.mk.inj (Prod.mk.inj heq).2).1
      cases hget
      rw [hb]
      exact ⟨rfl, hle, le_rfl⟩
    · exact h.stamped k' dim' b row hget
  · intro k' dim' b hb
    dsimp only at hb ⊢
    rw [getBucket_consume, h.get_consume]
    split
    · rfl
    · rw [h.same k' dim' b hb]
      split
      · rw [Option.map_map]
        rfl
      · rfl
  · intro k' dim' b counter hb hget
    dsimp only at hb hget
    rw [h.get_consume] at hget
    split at hget
    · next heq =>
      cases hget
      have hb' : b = s.now / windowMs dim.window := (Prod.mk.inj (Prod.mk.inj heq).2).2
      obtain rfl := dimensionKeyToString_inj (Prod.mk.inj (Prod.mk.inj heq).2).1
      refine ⟨_, rfl, ?_⟩
      rw [hb']
      linarith
    · split at hget
      · next heq =>
        obtain ⟨old, hold, rfl⟩ := map_eq_some_iff.1 hget
        have hb' : b = s.now / windowMs dim.window - 1 := (Prod.mk.inj (Prod.mk.inj heq).2).2
        obtain rfl := dimensionKeyToString_inj (Prod.mk.inj (Prod.mk.inj heq).2).1
        refine ⟨_, rfl, ?_⟩
        rw [hb']
        linarith
      · exact h.lives k' dim' b counter hb hget

theorem Mirrored.gc {maxUpdatedAtMs : ℤ}
    (hold : ∀ row ∈ s.rows.entries, row.2.updatedAt < maxUpdatedAtMs →
      row.2.updatedAt + 2 * row.2.windowMs ≤ s.now) :
    Mirrored { s with rows := s.rows.gc maxUpdatedAtMs } := by
  have hget : ∀ key, (s.rows.gc maxUpdatedAtMs).get key =
      (s.rows.get key).filter fun row => maxUpdatedAtMs ≤ row.updatedAt :=
    fun key => get_filter _ _ _
  refine ⟨fun p hp => h.positive p (mem_filter.1 hp).1, ?_, ?_, h.lives⟩
  · intro k dim b row hrow
    dsimp only at hrow
    rw [hget] at hrow
    exact h.stamped k dim b row (filter_eq_some_iff.1 hrow).1
  · intro k dim b hb
    dsimp only at hb ⊢
    rw [hget, ← h.same k dim b hb]
    cases hrow : s.rows.get (k, dimensionKeyToString dim, b) with
    | none => rfl
    | some row =>
      -- a row of a bucket that counts is young
      obtain ⟨hwindow, hle, -⟩ := h.stamped k dim b row hrow
      have hyoung : maxUpdatedAtMs ≤ row.updatedAt := by
        by_contra hlt
        have hover := hold _ (get_eq_some.1 hrow) (not_le.1 hlt)
        dsimp only at hover
        rw [hwindow] at hover
        linarith
      rw [filter_some, if_pos (decide_eq_true hyoung)]

theorem Mirrored.step {t : QuotaStores K} {e : QuotaStoreEvent K}
    (hstep : s.step e = some t) : Mirrored t := by
  cases e with
  | clock now =>
    rw [QuotaStores.step] at hstep
    split at hstep
    · next hle =>
      cases hstep
      refine ⟨h.positive, ?_, fun k dim b hb => h.same k dim b (lt_of_le_of_lt hle hb),
        fun k dim b counter hb => h.lives k dim b counter (lt_of_le_of_lt hle hb)⟩
      intro k dim b row hrow
      obtain ⟨hwindow, hstart, hpast⟩ := h.stamped k dim b row hrow
      exact ⟨hwindow, hstart, hpast.trans hle⟩
    · cases hstep
  | consume k dim cost =>
    rw [QuotaStores.step] at hstep
    split at hstep
    · next hcost =>
      cases hstep
      exact h.consume k dim hcost
    · cases hstep
  | upsertAllocations poolIds allocations =>
    cases hstep
    exact ⟨h.positive, h.stamped, h.same, h.lives⟩
  | gc maxUpdatedAtMs =>
    rw [QuotaStores.step] at hstep
    split at hstep
    · next hold =>
      cases hstep
      exact h.gc hold
    · cases hstep

/-! ## Who counts -/

/-- No bucket of the future is filled. -/
theorem Mirrored.getBucket_future (k : ApiKeyId) (dim : DimensionKey) {b : ℤ}
    (hb : s.now / windowMs dim.window < b) :
    s.rows.getBucket k (dimensionKeyToString dim) b = 0 := by
  unfold QuotaConsumption.getBucket
  cases hrow : s.rows.get (k, dimensionKeyToString dim, b) with
  | none => rfl
  | some row =>
    obtain ⟨-, hstart, hpast⟩ := h.stamped k dim b row hrow
    have hle := Int.le_ediv_of_mul_le (windowMs_pos dim.window) (hstart.trans hpast)
    omega

theorem Mirrored.inside_clock (hinside : Inside s) {now : ℤ} (hle : s.now ≤ now)
    (ht : Mirrored { s with now }) : Inside { s with now } := by
  intro dim allocations hget k hk
  have hzero := (h.peek_eq_zero k dim).1 (hinside dim allocations hget k hk)
  have hnow := Int.ediv_le_ediv (windowMs_pos dim.window) hle
  have hlater : ∀ b, s.now / windowMs dim.window ≤ b →
      s.rows.getBucket k (dimensionKeyToString dim) b = 0 := by
    intro b hb
    rcases hb.eq_or_lt with rfl | hb
    · exact hzero.1
    · exact h.getBucket_future k dim hb
  refine (ht.peek_eq_zero k dim).2 ⟨hlater _ hnow, ?_⟩
  dsimp only
  rcases hnow.eq_or_lt with heq | hlt
  · rw [← heq]
    exact hzero.2
  · exact hlater _ (by omega)

theorem Mirrored.inside_consume_iff (hinside : Inside s) (k : ApiKeyId)
    (dim : DimensionKey) {cost : K} (hcost : 0 < cost) {t : QuotaStores K}
    (ht : t = { s with
      rows := (SqliteQuotaStore.consume s.rows k dim cost s.now).1
      redis := (RedisQuotaStore.consume s.redis k dim cost s.now).1 }) (hmirrored : Mirrored t) :
    Inside t ↔ s.KeepsMembers (.consume k dim cost) := by
  have hbucket : ∀ k' d b, t.rows.getBucket k' d b =
      if (k', d, b) = (k, dimensionKeyToString dim, s.now / windowMs dim.window) then
        s.rows.getBucket k (dimensionKeyToString dim) (s.now / windowMs dim.window) + cost
      else s.rows.getBucket k' d b := by
    intro k' d b
    rw [ht]
    unfold QuotaConsumption.getBucket
    dsimp only
    rw [getBucket_consume]
    split
    · rfl
    · rfl
  have hnow : t.now = s.now := by rw [ht]
  have hpool : t.pool = s.pool := by rw [ht]
  constructor
  · intro hinside' allocations hget
    by_contra hk
    rw [← hpool] at hget
    have hzero := ((hmirrored.peek_eq_zero k dim).1 (hinside' dim allocations hget k hk)).1
    rw [hnow, hbucket, if_pos rfl] at hzero
    have hnonneg := h.positive.getBucket_nonneg k (dimensionKeyToString dim)
      (s.now / windowMs dim.window)
    linarith
  · intro hmember dim' allocations hget k' hk'
    rw [hpool] at hget
    have hzero := (h.peek_eq_zero k' dim').1 (hinside dim' allocations hget k' hk')
    have hne : ∀ b, ¬ (k', dimensionKeyToString dim', b) =
        (k, dimensionKeyToString dim, s.now / windowMs dim.window) := by
      intro b heq
      obtain rfl := (Prod.mk.inj heq).1
      obtain rfl := dimensionKeyToString_inj (Prod.mk.inj (Prod.mk.inj heq).2).1
      exact hk' (hmember allocations hget)
    apply (hmirrored.peek_eq_zero k' dim').2
    rw [hnow, hbucket, hbucket, if_neg (hne _), if_neg (hne _)]
    exact hzero

theorem step_inside_iff {t : QuotaStores K} {e : QuotaStoreEvent K}
    (hinside : Inside s) (hstep : s.step e = some t) : Inside t ↔ s.KeepsMembers e := by
  have hmirrored := h.step hstep
  cases e with
  | clock now =>
    rw [QuotaStores.step] at hstep
    split at hstep
    · next hle =>
      cases hstep
      exact iff_of_true (h.inside_clock hinside hle hmirrored) trivial
    · cases hstep
  | consume k dim cost =>
    rw [QuotaStores.step] at hstep
    split at hstep
    · next hcost =>
      exact h.inside_consume_iff hinside k dim hcost (some.inj hstep).symm hmirrored
    · cases hstep
  | upsertAllocations poolIds allocations =>
    cases hstep
    constructor
    · intro hinside' dim hmem old hold k _ hk
      apply hinside' dim allocations ?_ k hk
      dsimp only
      rw [if_pos hmem, hold]
      rfl
    · intro hkeeps dim allocations' hget k hk
      dsimp only at hget ⊢
      split at hget
      · next hmem =>
        obtain ⟨old, hold, rfl⟩ := map_eq_some_iff.1 hget
        by_cases hin : k ∈ old.1
        · exact hkeeps dim hmem old hold k hin hk
        · exact hinside dim old hold k hin
      · exact hinside dim allocations' hget k hk
  | gc maxUpdatedAtMs =>
    rw [QuotaStores.step] at hstep
    split at hstep
    · cases hstep
      refine iff_of_true ?_ trivial
      intro dim allocations hget k hk
      rw [hmirrored.peek k dim]
      exact (h.peek k dim).symm.trans (hinside dim allocations hget k hk)
    · cases hstep

end

theorem Mirrored.start (now : ℤ) (pool : String → Option Allocations) :
    Mirrored (start now pool : QuotaStores K) where
  positive := nofun
  stamped := nofun
  same := fun _ _ _ _ => rfl
  lives := nofun

theorem inside_start (now : ℤ) (pool : String → Option Allocations) :
    Inside (start now pool : QuotaStores K) := by
  intro dim allocations _ k _
  exact ((Mirrored.start now pool).peek_eq_zero k dim).2 ⟨rfl, rfl⟩

/-- The stores agree throughout a run exactly when only the members of a pool consume of it, and
no member is removed that still counts. -/
theorem stores_agree_iff (now : ℤ) (pool : String → Option Allocations)
    (es : List (QuotaStoreEvent K)) :
    Trace.Throughout step Agree (start now pool : QuotaStores K) es ↔
      Trace.Meets step KeepsMembers (start now pool : QuotaStores K) es := by
  apply Trace.throughout_iff_meets (I := Mirrored)
  · exact fun s e t h hstep => h.step hstep
  · intro s e t h hagree hstep
    rw [(h.step hstep).agree_iff]
    exact step_inside_iff h (h.agree_iff.1 hagree) hstep
  · exact Mirrored.start now pool
  · exact (Mirrored.start now pool).agree_iff.2 (inside_start now pool)

/-- A member consumes in two windows, and is removed when nothing counts any more. -/
theorem stores_agree_members :
    Trace.Throughout step Agree
      (start 0 (fun _ => some ⟨[⟨"k", by decide⟩], by decide⟩) : QuotaStores ℚ)
      [.consume ⟨"k", by decide⟩ ⟨"p", .tokens, .hourly⟩ 5, .clock 3600000,
        .consume ⟨"k", by decide⟩ ⟨"p", .tokens, .hourly⟩ 2, .clock 5000000] := by
  refine (stores_agree_iff 0 _ _).2 ?_
  intro s₁ h₁
  refine ⟨?_, fun s₂ h₂ => ⟨trivial, fun s₃ h₃ => ⟨?_, fun s₄ h₄ => ⟨trivial, trivial⟩⟩⟩⟩
  · intro allocations hget
    cases hget
    exact mem_singleton_self _
  · cases h₁
    cases h₂
    intro allocations hget
    cases hget
    exact mem_singleton_self _

/-- A key consumes and is taken out of its pool. -/
theorem removedKey_disagrees :
    ¬ ∀ (pool : String → Option Allocations) (es : List (QuotaStoreEvent ℚ)),
      Trace.Throughout step Agree (start 0 pool) es := by
  intro hall
  have hrun := hall (fun _ => some ⟨[⟨"k", by decide⟩], by decide⟩)
    [.consume ⟨"k", by decide⟩ ⟨"p", .tokens, .daily⟩ 5, .upsertAllocations ["p"] ⟨[], by decide⟩]
  have hlast := Trace.throughout_iff_prefix.1 hrun _ _ (prefix_refl _) rfl
  have htotal := hlast.2 ⟨"p", .tokens, .daily⟩ (by decide +kernel)
  exact absurd htotal (by decide +kernel)

end QuotaStores

end
end OmniRoute
