import OmniRoute.QuotaCache.Cache

/-!
# Windows in another order

A rebuilt entry has its windows in the order of the query. What is read from an entry does not
depend on the order, as long as its window names are told apart where the code compares them.

**Main results (`resolveQuotaWindow_perm`, `resetMs_earliestResetAt`).** The same window is found for
a name, and the earliest reset is at the same time.
-/

namespace OmniRoute.QuotaCache

open List Option OrdMap

variable {P : Platform}

/-- What the platform documents: `localeCompare` orders texts, and a query returns its rows. -/
structure Platform.Lawful (P : Platform) : Prop where
  collates_trans : ∀ a b c, P.collates a b = true → P.collates b c = true → P.collates a c = true
  collates_total : ∀ a b, (P.collates a b || P.collates b a) = true
  rowOrder_perm : ∀ names, (P.rowOrder names).Perm names

/-- The names are told apart: when they are normalised, and when they are ordered. -/
def Apart (P : Platform) (names : List String) : Prop :=
  ∀ a ∈ names, ∀ b ∈ names, a ≠ b →
    (normalizeWindowKey P a ≠ "" → normalizeWindowKey P a ≠ normalizeWindowKey P b) ∧
      ¬(P.collates a b = true ∧ P.collates b a = true)

/-! ## Finding a window -/

/-- With one match at most, the order does not matter. -/
theorem find?_perm {α : Type*} {p : α → Bool} {l l' : List α} (h : l.Perm l')
    (hone : ∀ a ∈ l, ∀ b ∈ l, p a = true → p b = true → a = b) : l.find? p = l'.find? p := by
  cases hfound : l'.find? p with
  | none =>
    rw [find?_eq_none] at hfound ⊢
    exact fun a ha => hfound a (h.mem_iff.1 ha)
  | some a =>
    have ha : a ∈ l := h.mem_iff.2 (mem_of_find?_eq_some hfound)
    have hpa := find?_some hfound
    cases hother : l.find? p with
    | none => exact absurd hpa (find?_eq_none.1 hother a ha)
    | some b =>
      have hb := mem_of_find?_eq_some hother
      rw [hone b hb a ha (find?_some hother) hpa]

/-- Entries that are told apart are sorted in one way. -/
theorem mergeSort_perm {μ : Type} (hP : P.Lawful) {l l' : List (String × μ)} (h : l.Perm l')
    (hapart : ∀ a ∈ l, ∀ b ∈ l, P.collates a.1 b.1 = true → P.collates b.1 a.1 = true → a = b) :
    (l.mergeSort fun a b => P.collates a.1 b.1) = l'.mergeSort fun a b => P.collates a.1 b.1 := by
  refine Perm.eq_of_pairwise ?_
    (pairwise_mergeSort (fun a b c => hP.collates_trans a.1 b.1 c.1)
      (fun a b => hP.collates_total a.1 b.1) _)
    (pairwise_mergeSort (fun a b c => hP.collates_trans a.1 b.1 c.1)
      (fun a b => hP.collates_total a.1 b.1) _) ?_
  · intro a b ha hb
    exact hapart a (mem_mergeSort.1 ha) b (h.mem_iff.2 (mem_mergeSort.1 hb))
  · exact (List.mergeSort_perm l _).trans (h.trans (List.mergeSort_perm l' _).symm)

section Resolve

variable {ν μ : Type} {f : ν → μ} {m : OrdMap String ν} {m' : OrdMap String μ}

/-- The entries of another map with the values changed. -/
def Renders (f : ν → μ) (m : OrdMap String ν) (m' : OrdMap String μ) : Prop :=
  m'.entries.Perm (m.entries.map fun entry => (entry.1, f entry.2))

theorem Renders.get (h : Renders f m m') (key : String) : m'.get key = (m.get key).map f := by
  ext v
  rw [get_eq_some, h.mem_iff, List.mem_map, map_eq_some_iff]
  constructor
  · rintro ⟨⟨key', v'⟩, hmem, heq⟩
    obtain ⟨rfl, rfl⟩ := Prod.mk.inj heq
    exact ⟨v', get_eq_some.2 hmem, rfl⟩
  · rintro ⟨v', hget, rfl⟩
    exact ⟨(key, v'), get_eq_some.1 hget, rfl⟩

theorem renders_of_get (h : ∀ key, m'.get key = (m.get key).map f) : Renders f m m' := by
  have hnodup : (m.entries.map fun entry => (entry.1, f entry.2)).Nodup := by
    refine Nodup.of_map Prod.fst ?_
    rw [List.map_map]
    exact m.nodup
  refine (perm_ext_iff_of_nodup (Nodup.of_map Prod.fst m'.nodup) hnodup).2 ?_
  rintro ⟨key, v⟩
  rw [← get_eq_some, h, map_eq_some_iff, List.mem_map]
  constructor
  · rintro ⟨v', hget, rfl⟩
    exact ⟨(key, v'), get_eq_some.1 hget, rfl⟩
  · rintro ⟨⟨key', v'⟩, hmem, heq⟩
    obtain ⟨rfl, rfl⟩ := Prod.mk.inj heq
    exact ⟨v', get_eq_some.2 hmem, rfl⟩

theorem Renders.values (h : Renders f m m') : m'.values.Perm (m.values.map f) := by
  have hmap := h.map Prod.snd
  rw [List.map_map] at hmap
  rw [OrdMap.values, OrdMap.values, List.map_map]
  exact hmap

theorem mem_values {v : ν} : v ∈ m.values ↔ ∃ key, m.get key = some v := by
  constructor
  · intro h
    obtain ⟨⟨key, v⟩, hmem, rfl⟩ := List.mem_map.1 h
    exact ⟨key, get_eq_some.2 hmem⟩
  · rintro ⟨key, hget⟩
    exact List.mem_map.2 ⟨(key, v), get_eq_some.1 hget, rfl⟩

/-- What is found for a name is one of the windows. -/
theorem resolveQuotaWindow_mem {name : String} {v : ν} (h : resolveQuotaWindow P m name = some v) :
    v ∈ m.values := by
  rw [resolveQuotaWindow] at h
  split at h
  · next direct hget =>
    cases h
    exact mem_values.2 ⟨name, hget⟩
  dsimp only at h
  split at h
  · cases h
  split at h
  · next entry hfound =>
    cases h
    exact List.mem_map_of_mem (mem_of_find?_eq_some hfound)
  · obtain ⟨entry, hhead, rfl⟩ := map_eq_some_iff.1 h
    have hmem := mem_mergeSort.1 (mem_of_head? hhead)
    exact List.mem_map_of_mem (mem_of_mem_filter hmem)

theorem mem_keys_of_mem {entry : String × ν} (h : entry ∈ m.entries) : entry.1 ∈ m.keys :=
  List.mem_map_of_mem h

theorem eq_of_keys_eq {a b : String × ν} (ha : a ∈ m.entries) (hb : b ∈ m.entries)
    (hkey : a.1 = b.1) : a = b := by
  have hget := get_eq_some.2 hb
  rw [← hkey, get_eq_some.2 ha] at hget
  exact Prod.ext hkey (some.inj hget)

theorem resolveQuotaWindow_perm (hP : P.Lawful) (h : Renders f m m') (hapart : Apart P m.keys)
    (name : String) : resolveQuotaWindow P m' name = (resolveQuotaWindow P m name).map f := by
  rw [resolveQuotaWindow, resolveQuotaWindow, h.get]
  cases m.get name with
  | some direct => rfl
  | none =>
    dsimp only [map_none]
    split
    · rfl
    next htarget =>
    generalize normalizeWindowKey P name = target at htarget ⊢
    have hentry : ∀ {a : String × μ}, a ∈ m'.entries →
        ∃ e ∈ m.entries, a = (e.1, f e.2) := by
      intro a ha
      obtain ⟨e, he, rfl⟩ := List.mem_map.1 (h.mem_iff.1 ha)
      exact ⟨e, he, rfl⟩
    have hfind : m'.entries.find? (fun entry => normalizeWindowKey P entry.1 = target) =
        (m.entries.find? fun entry => normalizeWindowKey P entry.1 = target).map
          fun entry => (entry.1, f entry.2) := by
      rw [find?_perm h, find?_map]
      · rfl
      · intro a ha b hb hpa hpb
        obtain ⟨d, hd, rfl⟩ := hentry ha
        obtain ⟨e, he, rfl⟩ := hentry hb
        have hnd : normalizeWindowKey P d.1 = target := of_decide_eq_true hpa
        have hne : normalizeWindowKey P e.1 = target := of_decide_eq_true hpb
        have hkey : d.1 = e.1 := by
          by_contra hdiff
          refine (hapart d.1 (mem_keys_of_mem hd) e.1 (mem_keys_of_mem he) hdiff).1 ?_
            (hnd.trans hne.symm)
          rw [hnd]
          exact htarget
        rw [eq_of_keys_eq hd he hkey]
    rw [hfind]
    cases m.entries.find? fun entry => normalizeWindowKey P entry.1 = target with
    | some entry => rfl
    | none =>
      have hfilter : (m'.entries.filter fun entry =>
          (target.toList ++ [' ']).isPrefixOf (normalizeWindowKey P entry.1).toList).Perm
          ((m.entries.filter fun entry =>
            (target.toList ++ [' ']).isPrefixOf (normalizeWindowKey P entry.1).toList).map
              fun entry => (entry.1, f entry.2)) := by
        refine (h.filter _).trans ?_
        rw [List.filter_map]
        rfl
      have hsort := mergeSort_perm hP hfilter ?_
      · have hmap := map_mergeSort (r := fun a b : String × ν => P.collates a.1 b.1)
          (s := fun a b : String × μ => P.collates a.1 b.1) (f := fun entry => (entry.1, f entry.2))
          (l := m.entries.filter fun entry =>
            (target.toList ++ [' ']).isPrefixOf (normalizeWindowKey P entry.1).toList)
          fun _ _ _ _ => rfl
        dsimp only [map_none]
        rw [hsort, ← hmap, head?_map, Option.map_map, Option.map_map]
        rfl
      · intro a ha b hb hab hba
        obtain ⟨d, hd, rfl⟩ := hentry (mem_of_mem_filter ha)
        obtain ⟨e, he, rfl⟩ := hentry (mem_of_mem_filter hb)
        have hkey : d.1 = e.1 := by
          by_contra hdiff
          exact (hapart d.1 (mem_keys_of_mem hd) e.1 (mem_keys_of_mem he) hdiff).2 ⟨hab, hba⟩
        rw [eq_of_keys_eq hd he hkey]

end Resolve

/-! ## The earliest reset -/

theorem resetMs_some {resetAt : String} {ms : ℤ} (h : resetMs P (some resetAt) = some ms) :
    truthy (some resetAt) ≠ none := by
  intro hnone
  rw [resetMs, hnone] at h
  cases h

/-- What the loop over the windows has found: the earliest reset of those seen. -/
def IsEarliest (P : Platform) (seen : List QuotaInfo) : Option (String × ℤ) → Prop
  | none => ∀ q ∈ seen, resetMs P q.resetAt = none
  | some (resetAt, ms) => resetMs P (some resetAt) = some ms ∧
    (∃ q ∈ seen, q.resetAt = some resetAt) ∧
    ∀ q ∈ seen, ∀ ms', resetMs P q.resetAt = some ms' → ms ≤ ms'

theorem isEarliest_earlier {seen : List QuotaInfo} {earliest : Option (String × ℤ)}
    (h : IsEarliest P seen earliest) (q : QuotaInfo) :
    IsEarliest P (seen ++ [q]) (earlier P earliest q) := by
  have hcases : resetMs P q.resetAt = none ∧ earlier P earliest q = earliest ∨
      ∃ resetAt ms, q.resetAt = some resetAt ∧ resetMs P (some resetAt) = some ms ∧
        earlier P earliest q = if earliest.all fun found => ms < found.2 then some (resetAt, ms)
          else earliest := by
    rw [earlier]
    cases hreset : q.resetAt with
    | none => exact Or.inl ⟨rfl, rfl⟩
    | some resetAt =>
      cases hms : resetMs P (some resetAt) with
      | none => exact Or.inl ⟨rfl, rfl⟩
      | some ms => exact Or.inr ⟨resetAt, ms, rfl, hms, rfl⟩
  rcases hcases with ⟨hnone, heq⟩ | ⟨resetAt, ms, hreset, hms, heq⟩
  · rw [heq]
    cases earliest with
    | none =>
      intro q' hq'
      rcases mem_append.1 hq' with hq' | hq'
      · exact h q' hq'
      · rw [mem_singleton.1 hq']
        exact hnone
    | some found =>
      obtain ⟨hfound, ⟨q₀, hq₀, hat⟩, hle⟩ := h
      refine ⟨hfound, ⟨q₀, mem_append_left _ hq₀, hat⟩, fun q' hq' ms' hms' => ?_⟩
      rcases mem_append.1 hq' with hq' | hq'
      · exact hle q' hq' ms' hms'
      · rw [mem_singleton.1 hq', hnone] at hms'
        cases hms'
  · have hself : ∀ ms', resetMs P q.resetAt = some ms' → ms' = ms := by
      intro ms' hms'
      rw [hreset, hms] at hms'
      exact (some.inj hms').symm
    rw [heq]
    cases earliest with
    | none =>
      refine ⟨hms, ⟨q, mem_append_right _ mem_cons_self, hreset⟩, ?_⟩
      intro q' hq' ms' hms'
      rcases mem_append.1 hq' with hq' | hq'
      · rw [h q' hq'] at hms'
        cases hms'
      · rw [mem_singleton.1 hq'] at hms'
        exact (hself ms' hms').ge
    | some found =>
      obtain ⟨hfound, ⟨q₀, hq₀, hat⟩, hle⟩ := h
      dsimp only [all_some]
      by_cases hlt : ms < found.2
      · rw [if_pos (decide_eq_true hlt)]
        refine ⟨hms, ⟨q, mem_append_right _ mem_cons_self, hreset⟩, ?_⟩
        intro q' hq' ms' hms'
        rcases mem_append.1 hq' with hq' | hq'
        · exact hlt.le.trans (hle q' hq' ms' hms')
        · rw [mem_singleton.1 hq'] at hms'
          exact (hself ms' hms').ge
      · rw [if_neg (by simpa using hlt)]
        refine ⟨hfound, ⟨q₀, mem_append_left _ hq₀, hat⟩, fun q' hq' ms' hms' => ?_⟩
        rcases mem_append.1 hq' with hq' | hq'
        · exact hle q' hq' ms' hms'
        · rw [mem_singleton.1 hq'] at hms'
          rw [hself ms' hms']
          exact not_lt.1 hlt

theorem isEarliest_foldl (seen quotas : List QuotaInfo) (earliest : Option (String × ℤ))
    (h : IsEarliest P seen earliest) :
    IsEarliest P (seen ++ quotas) (quotas.foldl (earlier P) earliest) := by
  induction quotas generalizing seen earliest with
  | nil => rwa [append_nil]
  | cons q quotas ih =>
    have hstep := ih _ _ (isEarliest_earlier h q)
    rwa [append_assoc] at hstep

/-- The earliest reset time parses, and no other is earlier. -/
theorem earliestResetAt_spec (quotas : OrdMap String QuotaInfo) :
    (earliestResetAt P quotas = none ∧ ∀ q ∈ quotas.values, resetMs P q.resetAt = none) ∨
      ∃ ms, truthy (earliestResetAt P quotas) ≠ none ∧
        resetMs P (earliestResetAt P quotas) = some ms ∧
        (∃ q ∈ quotas.values, resetMs P q.resetAt = some ms) ∧
        ∀ q ∈ quotas.values, ∀ ms', resetMs P q.resetAt = some ms' → ms ≤ ms' := by
  have hspec := isEarliest_foldl (P := P) [] quotas.values none (fun q hq => absurd hq not_mem_nil)
  rw [List.nil_append] at hspec
  rw [earliestResetAt]
  cases hfound : quotas.values.foldl (earlier P) none with
  | none =>
    rw [hfound] at hspec
    exact Or.inl ⟨rfl, hspec⟩
  | some found =>
    rw [hfound] at hspec
    obtain ⟨hms, ⟨q, hq, hat⟩, hle⟩ := hspec
    refine Or.inr ⟨found.2, resetMs_some hms, hms, ⟨q, hq, ?_⟩, hle⟩
    rw [hat]
    exact hms

/-- The same reset times have the same earliest time. -/
theorem resetMs_earliestResetAt {quotas quotas' : OrdMap String QuotaInfo}
    (h : quotas'.values.map (fun q => resetMs P q.resetAt) ⊆
      quotas.values.map fun q => resetMs P q.resetAt)
    (h' : quotas.values.map (fun q => resetMs P q.resetAt) ⊆
      quotas'.values.map fun q => resetMs P q.resetAt) :
    resetMs P (earliestResetAt P quotas') = resetMs P (earliestResetAt P quotas) := by
  have hin : ∀ {a b : OrdMap String QuotaInfo}, a.values.map (fun q => resetMs P q.resetAt) ⊆
      b.values.map (fun q => resetMs P q.resetAt) → ∀ q ∈ a.values,
        ∃ q' ∈ b.values, resetMs P q'.resetAt = resetMs P q.resetAt := fun hsub q hq =>
    List.mem_map.1 (hsub (List.mem_map_of_mem hq))
  rcases earliestResetAt_spec (P := P) quotas with ⟨hnil, hnone⟩ | ⟨ms, -, hms, ⟨q, hq, hat⟩, hle⟩
  · rcases earliestResetAt_spec (P := P) quotas' with ⟨hnil', -⟩ | ⟨ms, -, -, ⟨q, hq, hat⟩, -⟩
    · rw [hnil, hnil']
    · obtain ⟨q', hq', heq⟩ := hin h q hq
      rw [hnone q' hq', hat] at heq
      cases heq
  · rcases earliestResetAt_spec (P := P) quotas' with
      ⟨-, hnone'⟩ | ⟨ms', -, hms', ⟨q₁, hq₁, hat₁⟩, hle'⟩
    · obtain ⟨q', hq', heq⟩ := hin h' q hq
      rw [hnone' q' hq', hat] at heq
      cases heq
    · obtain ⟨q', hq', heq⟩ := hin h' q hq
      obtain ⟨q₂, hq₂, heq₂⟩ := hin h q₁ hq₁
      have hge := hle' q' hq' ms (heq.trans hat)
      have hle₂ := hle q₂ hq₂ ms' (heq₂.trans hat₁)
      rw [hms, hms', le_antisymm hge hle₂]

end OmniRoute.QuotaCache
