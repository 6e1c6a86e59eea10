import OmniRoute.Lib.Maximum
import OmniRoute.QuotaCache.Windows

/-!
# The latest rows

What the rows of a connection say of each window, and what a report adds to that; and the entry that
is rebuilt from them: for each window that has a row the latest one, and the time of the last.
-/

namespace OmniRoute.QuotaCache

open List

variable {P : Platform}

/-! ## The latest row of a window -/

/-- The step of the query: a row takes the place of an older one. -/
def later (latest : Option SnapshotRow) (row : SnapshotRow) : Option SnapshotRow :=
  if latest.any fun found => row.createdAt < found.createdAt then latest else some row

variable {rows : List SnapshotRow} {row : SnapshotRow}

theorem foldl_later_mem {latest : Option SnapshotRow} (h : rows.foldl later latest = some row) :
    row ∈ rows ∨ latest = some row := by
  induction rows generalizing latest with
  | nil => exact Or.inr h
  | cons first rows ih =>
    rcases ih h with hmem | hlater
    · exact Or.inl (mem_cons_of_mem first hmem)
    · rw [later] at hlater
      split at hlater
      · exact Or.inr hlater
      · rw [Option.some.inj hlater]
        exact Or.inl mem_cons_self

theorem foldl_later_isSome (rows : List SnapshotRow) {latest : Option SnapshotRow}
    (h : latest.isSome = true ∨ rows ≠ []) : (rows.foldl later latest).isSome = true := by
  induction rows generalizing latest with
  | nil => exact h.resolve_right fun hne => hne rfl
  | cons first rows ih =>
    refine ih (Or.inl ?_)
    rw [later]
    split
    · next hany =>
      cases latest with
      | none => cases hany
      | some found => rfl
    · rfl

variable {windowKey : String}

theorem latestRow_mem (h : latestRow rows windowKey = some row) :
    row ∈ rows ∧ row.windowKey = windowKey := by
  rcases foldl_later_mem h with hmem | hnone
  · obtain ⟨hmem, hkey⟩ := mem_filter.1 hmem
    exact ⟨hmem, of_decide_eq_true hkey⟩
  · cases hnone

theorem latestRow_isSome :
    (latestRow rows windowKey).isSome = true ↔ windowKey ∈ rows.map SnapshotRow.windowKey := by
  constructor
  · intro h
    obtain ⟨row, hrow⟩ := Option.isSome_iff_exists.1 h
    obtain ⟨hmem, hkey⟩ := latestRow_mem hrow
    exact mem_map.2 ⟨row, hmem, hkey⟩
  · intro h
    obtain ⟨row, hmem, hkey⟩ := mem_map.1 h
    refine foldl_later_isSome _ (Or.inr ?_)
    exact ne_nil_of_mem (mem_filter.2 ⟨hmem, decide_eq_true hkey⟩)

/-- Rows of other windows do not matter. -/
theorem latestRow_append_other {new : List SnapshotRow}
    (h : ∀ row ∈ new, row.windowKey ≠ windowKey) :
    latestRow (rows ++ new) windowKey = latestRow rows windowKey := by
  have hnil : (new.filter fun row => row.windowKey = windowKey) = [] :=
    filter_eq_nil_iff.2 fun row hrow => by simpa using h row hrow
  rw [latestRow, filter_append, hnil, append_nil]
  rfl

/-- A single row that is later than all before is the latest. -/
theorem latestRow_append_single {new : List SnapshotRow}
    (hnew : (new.filter fun row => row.windowKey = windowKey) = [row])
    (hlate : ∀ old ∈ rows, old.createdAt ≤ row.createdAt) :
    latestRow (rows ++ new) windowKey = some row := by
  rw [latestRow, filter_append, hnew, foldl_append, foldl_cons, foldl_nil]
  refine if_neg ?_
  intro hany
  obtain ⟨found, hfound, hlt⟩ := (Option.any_eq_true _ _).1 hany
  rcases foldl_later_mem hfound with hmem | hnone
  · exact absurd (of_decide_eq_true hlt) (not_lt.2 (hlate found (mem_of_mem_filter hmem)))
  · cases hnone

/-! ## Rebuilding -/

/-- The rows that are read. -/
def snapshots (P : Platform) (rows : List SnapshotRow) : List SnapshotRow :=
  (getLatestQuotaSnapshots P rows).filter fun row => row.windowKey ≠ ""

theorem mem_snapshots (hP : P.Lawful) :
    row ∈ snapshots P rows ↔ latestRow rows row.windowKey = some row ∧ row.windowKey ≠ "" := by
  rw [snapshots, mem_filter, getLatestQuotaSnapshots, mem_filterMap]
  refine and_congr ?_ (by simp)
  constructor
  · rintro ⟨key, -, hrow⟩
    rwa [(latestRow_mem hrow).2]
  · intro hrow
    refine ⟨row.windowKey, (hP.rowOrder_perm _).mem_iff.2 (mem_dedup.2 ?_), hrow⟩
    exact mem_map_of_mem (latestRow_mem hrow).1

theorem nodup_snapshots (hP : P.Lawful) (rows : List SnapshotRow) :
    ((snapshots P rows).map SnapshotRow.windowKey).Nodup := by
  have hkeys : ∀ names : List String,
      (names.filterMap (latestRow rows)).map SnapshotRow.windowKey =
        names.filter fun name => (latestRow rows name).isSome := by
    intro names
    induction names with
    | nil => rfl
    | cons name names ih =>
      rw [filterMap_cons, filter_cons]
      cases hrow : latestRow rows name with
      | none => exact ih
      | some row =>
        rw [map_cons, ih, (latestRow_mem hrow).2]
        rfl
  refine List.Nodup.sublist (filter_sublist.map _) ?_
  rw [getLatestQuotaSnapshots, hkeys]
  exact ((hP.rowOrder_perm _).nodup_iff.2 (nodup_dedup _)).filter _

theorem get_foldl_set (hnodup : (rows.map SnapshotRow.windowKey).Nodup)
    (quotas : OrdMap String QuotaInfo) {key : String} {info : QuotaInfo} :
    (rows.foldl (fun quotas row => quotas.set row.windowKey row.quota) quotas).get key =
      some info ↔ (∃ row ∈ rows, row.windowKey = key ∧ row.quota = info) ∨
        (∀ row ∈ rows, row.windowKey ≠ key) ∧ quotas.get key = some info := by
  induction rows generalizing quotas with
  | nil => simp
  | cons first rows ih =>
    obtain ⟨hnot, hnodup⟩ := nodup_cons.1 hnodup
    rw [foldl_cons, ih hnodup, OrdMap.get_set, exists_mem_cons_iff, forall_mem_cons]
    by_cases hkey : key = first.windowKey
    · subst hkey
      have hother : ∀ row ∈ rows, row.windowKey ≠ first.windowKey := fun row hrow heq =>
        hnot (mem_map.2 ⟨row, hrow, heq⟩)
      rw [if_pos rfl]
      constructor
      · rintro (⟨row, hrow, heq, -⟩ | ⟨-, hinfo⟩)
        · exact absurd heq (hother row hrow)
        · exact Or.inl (Or.inl ⟨rfl, Option.some.inj hinfo⟩)
      · rintro ((⟨-, rfl⟩ | ⟨row, hrow, heq, -⟩) | ⟨⟨hne, -⟩, -⟩)
        · exact Or.inr ⟨hother, rfl⟩
        · exact absurd heq (hother row hrow)
        · exact absurd rfl hne
    · have hne : first.windowKey ≠ key := Ne.symm hkey
      simp [hkey, hne]

/-- The time of the last of the rows that are read. -/
def snapshotTime (P : Platform) (rows : List SnapshotRow) : ℤ :=
  ((snapshots P rows).map SnapshotRow.createdAt).foldl max 0

/-- Without a row there is no entry. -/
theorem hydrate_nil (hP : P.Lawful) (now : ℤ) : hydrate P [] now = none := by
  have hnil : snapshots P [] = [] := by
    refine eq_nil_iff_forall_not_mem.2 fun row hrow => ?_
    cases (latestRow_mem ((mem_snapshots hP).1 hrow).1).1
  show (if (((snapshots P []).foldl (fun quotas row => quotas.set row.windowKey row.quota)
    OrdMap.empty).keys = []) then none else _) = none
  rw [hnil]
  rfl

/-- With a row of a named window there is an entry, with the latest row of each window. -/
theorem hydrate_spec (hP : P.Lawful) (hnames : ∀ row ∈ rows, row.windowKey ≠ "")
    (htimes : ∀ row ∈ rows, 0 < row.createdAt) (hrows : rows ≠ []) (now : ℤ) :
    ∃ e, hydrate P rows now = some e ∧
      (∀ key, e.quotas.get key = (latestRow rows key).map SnapshotRow.quota) ∧
      e.fetchedAt = snapshotTime P rows ∧ e.exhausted = isExhausted e.quotas ∧
      e.nextResetAt = if e.exhausted then earliestResetAt P e.quotas else none := by
  have hget : ∀ key, ((snapshots P rows).foldl (fun quotas row =>
      quotas.set row.windowKey row.quota) OrdMap.empty).get key =
        (latestRow rows key).map SnapshotRow.quota := by
    intro key
    ext info
    rw [get_foldl_set (nodup_snapshots hP rows), Option.map_eq_some_iff]
    constructor
    · rintro (⟨row, hrow, rfl, rfl⟩ | ⟨-, hempty⟩)
      · exact ⟨row, ((mem_snapshots hP).1 hrow).1, rfl⟩
      · cases hempty
    · rintro ⟨row, hrow, rfl⟩
      obtain ⟨hmem, hkey⟩ := latestRow_mem hrow
      refine Or.inl ⟨row, (mem_snapshots hP).2 ⟨?_, hnames row hmem⟩, hkey, rfl⟩
      rwa [hkey]
  obtain ⟨row, hrow⟩ := exists_mem_of_ne_nil rows hrows
  obtain ⟨latest, hlatest⟩ := Option.isSome_iff_exists.1
    (latestRow_isSome.2 (mem_map_of_mem (f := SnapshotRow.windowKey) hrow))
  have hsnapshot : latest ∈ snapshots P rows := by
    obtain ⟨hmem, hkey⟩ := latestRow_mem hlatest
    refine (mem_snapshots hP).2 ⟨?_, hnames latest hmem⟩
    rwa [hkey]
  have hkeys : ((snapshots P rows).foldl (fun quotas row =>
      quotas.set row.windowKey row.quota) OrdMap.empty).keys ≠ [] := by
    have hmem := OrdMap.mem_keys.2 ⟨latest.quota, by rw [hget row.windowKey, hlatest]; rfl⟩
    exact ne_nil_of_mem hmem
  have htime : snapshotTime P rows ≠ 0 := by
    have hpos := htimes latest (latestRow_mem hlatest).1
    have hle : latest.createdAt ≤ snapshotTime P rows :=
      le_foldl_max_of_mem (mem_map_of_mem hsnapshot)
    omega
  refine ⟨_, if_neg hkeys, hget, if_neg htime, rfl, rfl⟩

end OmniRoute.QuotaCache
