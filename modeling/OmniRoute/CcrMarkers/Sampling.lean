import OmniRoute.CcrMarkers.Retrievable

/-!
# The sample of the ionizer

The rows that are always kept overlap, and the others are drawn by a partial shuffle of the
positions in between. The shuffle permutes the positions, so its first places hold different ones
whatever the seed is.

**Main result (`ionize_sample`).** The sample lists rows at increasing positions, among them all
that are always kept, and it has as many as asked for, or as are always kept if these are more.
-/

namespace OmniRoute.CcrMarkers

open JsData List

variable {N : Type}

/-! ## The shuffle -/

theorem swap_perm {i j : ℕ} {idx : List ℕ} (hi : i < idx.length) (hj : j < idx.length) :
    (swap i j idx).Perm idx := by
  unfold swap
  rw [getD_eq_getElem idx 0 hi, getD_eq_getElem idx 0 hj]
  exact set_set_perm hi hj

/-- The index drawn for place `i` is one of those from `i` on. -/
theorem draw_lt (r : UInt32) {i n : ℕ} (hi : i < n) : i + r.toNat * (n - i) / 2 ^ 32 < n := by
  have hr : r.toNat * (n - i) < (n - i) * 2 ^ 32 := by
    rw [Nat.mul_comm]
    exact Nat.mul_lt_mul_of_pos_left r.toNat_lt (Nat.sub_pos_of_lt hi)
  have hdraw := Nat.div_lt_of_lt_mul (by rwa [Nat.mul_comm] at hr)
  omega

theorem shuffled_perm {n rounds i : ℕ} (state : UInt32) {idx : List ℕ} (hlen : idx.length = n)
    (hrounds : i + rounds ≤ n) : (shuffled n rounds i state idx).Perm idx := by
  induction rounds generalizing i state idx with
  | zero => exact List.Perm.refl idx
  | succ rounds ih =>
    have hi : i < n := by omega
    have hswap : (swap i (i + (mulberry32 state).1.toNat * (n - i) / 2 ^ 32) idx).Perm idx :=
      swap_perm (hi.trans_eq hlen.symm) ((draw_lt _ hi).trans_eq hlen.symm)
    rw [shuffled]
    have hnext : i + 1 + rounds ≤ n := by omega
    exact (ih _ (hswap.length_eq.trans hlen) hnext).trans hswap

/-- A sample has different elements of the pool, as many as asked for as long as there are. -/
theorem seededSample_spec {pool : List ℕ} (hpool : pool.Nodup) (k : ℚ) (seed : UInt32) :
    (seededSample pool k seed).Nodup ∧ seededSample pool k seed ⊆ pool ∧
      (seededSample pool k seed).length = min ⌊k⌋₊ pool.length := by
  unfold seededSample
  split
  · next hk => exact ⟨hpool, List.Subset.refl pool, (min_eq_right (Nat.le_floor hk)).symm⟩
  next hk =>
  have hrounds : 0 + ⌈k⌉₊ ≤ pool.length := by
    rw [Nat.zero_add, Nat.ceil_le]
    exact (not_le.1 hk).le
  have hperm := shuffled_perm seed length_range hrounds
  have hsorted := mergeSort_perm
    ((shuffled pool.length ⌈k⌉₊ 0 seed (range pool.length)).take ⌊k⌋₊) (· ≤ ·)
  have hlt : ∀ i ∈ ((shuffled pool.length ⌈k⌉₊ 0 seed
      (range pool.length)).take ⌊k⌋₊).mergeSort, i < pool.length := by
    intro i hi
    exact mem_range.1 (hperm.subset (mem_of_mem_take (hsorted.subset hi)))
  refine ⟨?_, ?_, ?_⟩
  · have hnodup := hsorted.nodup_iff.2
      ((hperm.nodup_iff.2 nodup_range).sublist (take_sublist _ _))
    apply hnodup.map_on
    intro i hi j hj heq
    rw [getD_eq_getElem _ _ (hlt i hi), getD_eq_getElem _ _ (hlt j hj)] at heq
    exact hpool.getElem_inj_iff.1 heq
  · intro p hp
    obtain ⟨i, hi, rfl⟩ := mem_map.1 hp
    rw [getD_eq_getElem _ _ (hlt i hi)]
    exact getElem_mem _
  · rw [length_map, hsorted.length_eq, length_take, hperm.length_eq, length_range]

/-! ## The positions that are kept -/

variable {env : Env N} {rows : List (JsData N)} {firstK lastK : ℕ}

theorem mem_alwaysKept {i : ℕ} : i ∈ alwaysKept env rows firstK lastK ↔ ∃ row,
    rows[i]? = some row ∧ (isNovel rows row i = true ∨ isErrorRow env row = true ∨ i < firstK ∨
      rows.length - lastK ≤ i) := by
  simp only [alwaysKept, mem_map, mem_filter, Prod.exists, mk_mem_zipIdx_iff_getElem?,
    Bool.or_eq_true, decide_eq_true_eq, or_assoc]
  constructor
  · rintro ⟨row, i, h, rfl⟩
    exact ⟨row, h⟩
  · rintro ⟨row, h⟩
    exact ⟨row, i, h, rfl⟩

theorem alwaysKept_sublist :
    (alwaysKept env rows firstK lastK).Sublist (List.range rows.length) := by
  have hall : (alwaysKept env rows firstK lastK).Sublist (rows.zipIdx.map Prod.snd) :=
    filter_sublist.map Prod.snd
  rwa [zipIdx_map_snd, ← range_eq_range'] at hall

/-- The first row with a key is always kept. -/
theorem exists_alwaysKept_key {row : JsData N} (hrow : row ∈ rows) {key : CodeUnits}
    (hkey : key ∈ rowKeys row) : ∃ i ∈ alwaysKept env rows firstK lastK,
      ∃ first, rows[i]? = some first ∧ key ∈ rowKeys first := by
  have hex : ∃ i : ℕ, ∃ first, rows[i]? = some first ∧ key ∈ rowKeys first := by
    obtain ⟨i, hi⟩ := mem_iff_getElem?.1 hrow
    exact ⟨i, row, hi, hkey⟩
  classical
  obtain ⟨first, hfirst, hmem⟩ := Nat.find_spec hex
  refine ⟨Nat.find hex, mem_alwaysKept.2 ⟨first, hfirst, .inl ?_⟩, first, hfirst, hmem⟩
  refine any_eq_true.2 ⟨key, hmem, ?_⟩
  rw [Bool.not_eq_true', any_eq_false]
  intro earlier hearlier hcontains
  obtain ⟨j, hj⟩ := mem_iff_getElem?.1 hearlier
  rw [getElem?_take] at hj
  split at hj
  · next hlt => exact Nat.find_min hex hlt ⟨earlier, hj, contains_iff_mem.1 hcontains⟩
  · cases hj

/-- The positions of the rows in the sample. -/
def sampledRows (env : Env N) (rows : List (JsData N)) (targetRows : ℚ) (firstK lastK : ℕ)
    (seed : UInt32) : List ℕ :=
  if (rows.length : ℚ) ≤ targetRows then List.range rows.length
  else keptRows env rows targetRows firstK lastK seed

variable (targetRows : ℚ) (seed : UInt32)

theorem filterMap_range (rows : List (JsData N)) :
    ((List.range rows.length).filterMap fun i => rows[i]?) = rows := by
  have hmap : ((range rows.length).map fun i => rows[i]?) = rows.map some := by
    apply ext_getElem
    · rw [length_map, length_map, length_range]
    · intro i hi hrow
      simp
  have hid := congrArg (filterMap id) hmap
  rw [filterMap_map, filterMap_map] at hid
  exact hid.trans filterMap_some

theorem ionize_eq : ionize env rows targetRows firstK lastK seed =
    (sampledRows env rows targetRows firstK lastK seed).filterMap fun i => rows[i]? := by
  unfold ionize sampledRows
  split
  · exact (filterMap_range rows).symm
  · rfl

theorem sampledRows_sublist :
    (sampledRows env rows targetRows firstK lastK seed).Sublist (List.range rows.length) := by
  unfold sampledRows keptRows
  dsimp only
  split
  · exact List.Sublist.refl _
  split
  · exact filter_sublist
  · exact alwaysKept_sublist

theorem alwaysKept_subset : alwaysKept env rows firstK lastK ⊆
    sampledRows env rows targetRows firstK lastK seed := by
  unfold sampledRows keptRows
  dsimp only
  intro i hi
  have hrange := alwaysKept_sublist.subset hi
  split
  · exact hrange
  split
  · exact mem_filter.2 ⟨hrange, decide_eq_true (.inl hi)⟩
  · exact hi

theorem length_sampledRows : (sampledRows env rows targetRows firstK lastK seed).length =
    if (rows.length : ℚ) ≤ targetRows then rows.length
    else max ⌊targetRows⌋₊ (alwaysKept env rows firstK lastK).length := by
  have hsub : (alwaysKept env rows firstK lastK).Sublist _ := alwaysKept_sublist
  unfold sampledRows keptRows
  generalize alwaysKept env rows firstK lastK = keep at hsub ⊢
  split
  · exact length_range
  next hall =>
  dsimp only
  split
  · next hkeep =>
    have hmiddle : ((range rows.length).filter fun i => decide (i ∉ keep)).Nodup :=
      nodup_range.filter _
    obtain ⟨hnodup, hsubset, hlen⟩ :=
      seededSample_spec hmiddle (targetRows - keep.length) seed
    generalize seededSample _ (targetRows - keep.length) seed = sample at hnodup hsubset hlen
    have hdisjoint : keep.Disjoint sample := by
      intro i hi hs
      exact of_decide_eq_true (mem_filter.1 (hsubset hs)).2 hi
    have hunion : ((range rows.length).filter fun i => decide (i ∈ keep ∨ i ∈ sample)).Perm
        (keep ++ sample) := by
      apply (perm_ext_iff_of_nodup (nodup_range.filter _)
        ((nodup_range.sublist hsub).append hnodup hdisjoint)).2
      intro i
      rw [mem_filter, decide_eq_true_eq, mem_append, and_iff_right_iff_imp]
      rintro (hi | hi)
      · exact hsub.subset hi
      · exact (mem_filter.1 (hsubset hi)).1
    have hrest : ((range rows.length).filter fun i => decide (i ∉ keep)).length +
        keep.length = rows.length := by
      have hperm : ((range rows.length).filter fun i => decide (i ∈ keep)).Perm keep := by
        apply (perm_ext_iff_of_nodup (nodup_range.filter _) (nodup_range.sublist hsub)).2
        intro i
        rw [mem_filter, decide_eq_true_eq, and_iff_right_iff_imp]
        exact fun hi => hsub.subset hi
      have hsplit := length_eq_length_filter_add (l := range rows.length)
        fun i => decide (i ∈ keep)
      rw [hperm.length_eq, length_range] at hsplit
      simp only [decide_not]
      omega
    have hfloor : ⌊targetRows⌋₊ ≤ rows.length := Nat.floor_le_of_le (not_le.1 hall).le
    have hsize : keep.length ≤ ⌊targetRows⌋₊ := Nat.le_floor hkeep.le
    rw [hunion.length_eq, length_append, hlen, Nat.floor_sub_natCast]
    omega
  · next hkeep =>
    exact (max_eq_right ((Nat.floor_le_floor (not_lt.1 hkeep)).trans_eq (Nat.floor_natCast _))).symm

theorem length_ionize : (ionize env rows targetRows firstK lastK seed).length =
    if (rows.length : ℚ) ≤ targetRows then rows.length
    else max ⌊targetRows⌋₊ (alwaysKept env rows firstK lastK).length := by
  rw [ionize_eq, ← length_sampledRows targetRows seed]
  apply filterMap_length_eq_length.2
  intro i hi
  have hlt := mem_range.1 ((sampledRows_sublist targetRows seed).subset hi)
  rw [getElem?_eq_getElem hlt]
  rfl

/-! ## The sample -/

/-- **The sample keeps what it promises** for every seed: rows at increasing positions, with every
error row, the first and the last ones and a row for every key, and as many rows as asked for. -/
theorem ionize_sample (env : Env N) (rows : List (JsData N)) (targetRows : ℚ) (firstK lastK : ℕ)
    (seed : UInt32) :
    ∃ idx : List ℕ, idx.Sublist (List.range rows.length) ∧
      ionize env rows targetRows firstK lastK seed = idx.filterMap (fun i => rows[i]?) ∧
      (∀ i row, rows[i]? = some row →
        isErrorRow env row = true ∨ i < firstK ∨ rows.length - lastK ≤ i → i ∈ idx) ∧
      (∀ row ∈ rows, ∀ key ∈ rowKeys row,
        ∃ i ∈ idx, ∃ kept, rows[i]? = some kept ∧ key ∈ rowKeys kept) ∧
      (ionize env rows targetRows firstK lastK seed).length =
        if (rows.length : ℚ) ≤ targetRows then rows.length
        else max ⌊targetRows⌋₊ (alwaysKept env rows firstK lastK).length := by
  have hsub : (sampledRows env rows targetRows firstK lastK seed).Sublist _ :=
    sampledRows_sublist targetRows seed
  have hkept : alwaysKept env rows firstK lastK ⊆ _ := alwaysKept_subset targetRows seed
  refine ⟨_, hsub, ionize_eq targetRows seed, ?_, ?_, length_ionize targetRows seed⟩
  · exact fun i row hrow hmust => hkept (mem_alwaysKept.2 ⟨row, hrow, .inr hmust⟩)
  · intro row hrow key hkey
    obtain ⟨i, hi, hfirst⟩ := exists_alwaysKept_key hrow hkey
    exact ⟨i, hkept hi, hfirst⟩

/-- Twelve rows of one shape. -/
def sameRows : List (JsData ℤ) := List.replicate 12 (.obj [(CodeUnits.ofString "a", .num 1)])

/-- A target between two numbers of rows is not reached: of 10.5 rows, ten are kept. -/
theorem ionize_sameRows :
    ((ionize plainEnv sameRows (21 / 2) 3 3 7).length : ℚ) ≠
      max (21 / 2 : ℚ) (alwaysKept plainEnv sameRows 3 3).length := by
  have hkept : (alwaysKept plainEnv sameRows 3 3).length = 6 := by decide +kernel
  rw [length_ionize, hkept]
  norm_num [sameRows]

end OmniRoute.CcrMarkers
