import OmniRoute.LiveZone.Cache

/-!
# The byte counter and the bounds of the live-zone cache

Every path that puts an entry in or takes one out moves the byte counter along, so it is the sum
over the entries (`Counted`). A prune ends with both bounds met, since it can delete every entry
(`bounded_prune`), and every store ends with a prune (`accounted_store`).
-/

namespace OmniRoute.LiveZone

open List OrdMap

variable {N : Type} {s t : State N} {key : String} {entry : LiveZoneEntry N}

def entryBytes (p : String × LiveZoneEntry N) : ℤ := p.2.bytes

/-- The byte counter is the sum over the entries. -/
def Counted (s : State N) : Prop := s.totalBytes = s.entries.tally entryBytes

/-- The counter is right and the bounds hold. -/
structure Accounted (s : State N) : Prop where
  counted : Counted s
  size_le : s.entries.size ≤ maxEntries
  total_le : s.totalBytes ≤ maxTotalBytes

theorem maxTotalBytes_nonneg : 0 ≤ maxTotalBytes := by decide

theorem accounted_init : Accounted (State.init : State N) where
  counted := rfl
  size_le := Nat.zero_le _
  total_le := maxTotalBytes_nonneg

theorem Accounted.congr (h : Accounted s) (hentries : t.entries = s.entries)
    (htotal : t.totalBytes = s.totalBytes) : Accounted t := by
  obtain ⟨hcounted, hsize, hle⟩ := h
  refine ⟨?_, hentries ▸ hsize, htotal ▸ hle⟩
  rw [Counted, hentries, htotal]
  exact hcounted

/-! ## Deleting -/

theorem deleteEntry_entries : (deleteEntry key s).entries.entries =
    s.entries.entries.filter (·.1 ≠ key) := by
  cases hget : s.entries.get key with
  | none =>
    simp only [deleteEntry, hget]
    exact (delete_of_get_none hget).symm
  | some existing =>
    simp only [deleteEntry, hget]
    rfl

theorem get_deleteEntry {key' : String} : (deleteEntry key s).entries.get key' =
    if key' = key then none else s.entries.get key' := by
  cases hget : s.entries.get key with
  | none =>
    simp only [deleteEntry, hget]
    split
    · next heq => rw [heq, hget]
    · rfl
  | some existing =>
    simp only [deleteEntry, hget]
    exact get_delete _ _ _

theorem counted_deleteEntry (key : String) (h : Counted s) : Counted (deleteEntry key s) := by
  cases hget : s.entries.get key with
  | none => simpa only [deleteEntry, hget] using h
  | some existing =>
    have htally := tally_get (f := entryBytes) hget
    simp only [deleteEntry, hget, Counted, h.trans htally]
    exact add_sub_cancel_left _ _

theorem waiting_deleteEntry : (deleteEntry key s).waiting = s.waiting := by
  rw [deleteEntry]
  split <;> rfl

/-! ## Pruning -/

theorem evictOldest_invariant {I : State N → Prop} (hI : ∀ t key, I t → I (deleteEntry key t))
    (rounds : ℕ) (h : I s) : I (evictOldest rounds s) := by
  induction rounds generalizing s with
  | zero => exact h
  | succ rounds ih =>
    rw [evictOldest]
    split
    · split
      · exact h
      · exact ih (hI s _ h)
    · exact h

/-- What deleting an entry keeps, the first loop of `prune` keeps. -/
theorem deleteExpired_invariant {I : State N → Prop} (hI : ∀ t key, I t → I (deleteEntry key t))
    (now : ℤ) (entries : List (String × LiveZoneEntry N)) (h : I s) :
    I (entries.foldl
      (fun t p => if p.2.expiresAt ≤ (now : ℚ) then deleteEntry p.1 t else t) s) := by
  induction entries generalizing s with
  | nil => exact h
  | cons p entries ih =>
    rw [foldl_cons]
    split
    · exact ih (hI s p.1 h)
    · exact ih h

/-- What deleting an entry keeps, a prune keeps. -/
theorem prune_invariant {I : State N → Prop} (hI : ∀ t key, I t → I (deleteEntry key t))
    (now : ℤ) (h : I s) : I (prune now s) :=
  evictOldest_invariant hI _ (deleteExpired_invariant hI now s.entries.entries h)

theorem counted_prune (now : ℤ) (h : Counted s) : Counted (prune now s) :=
  prune_invariant (fun _ key ht => counted_deleteEntry key ht) now h

theorem waiting_prune (now : ℤ) : (prune now s).waiting = s.waiting :=
  prune_invariant (I := fun t => t.waiting = s.waiting)
    (fun _ _ ht => waiting_deleteEntry.trans ht) now rfl

theorem get_prune (now : ℤ) (h : (prune now s).entries.get key = some entry) :
    s.entries.get key = some entry := by
  have hsub : ∀ e, (prune now s).entries.get key = some e → s.entries.get key = some e := by
    refine prune_invariant (I := fun t => ∀ e, t.entries.get key = some e →
      s.entries.get key = some e) (fun t key' ht e he => ?_) now fun _ he => he
    rw [get_deleteEntry] at he
    split at he
    · cases he
    · exact ht e he
  exact hsub entry h

/-- With as many rounds as there are entries, both bounds are met in the end. -/
theorem bounded_evictOldest (rounds : ℕ) (h : Counted s) (hrounds : s.entries.size ≤ rounds) :
    (evictOldest rounds s).entries.size ≤ maxEntries ∧
      (evictOldest rounds s).totalBytes ≤ maxTotalBytes := by
  have hempty : ∀ t : State N, Counted t → t.entries.entries = [] →
      t.entries.size ≤ maxEntries ∧ t.totalBytes ≤ maxTotalBytes := by
    intro t ht hnil
    constructor
    · simp [OrdMap.size, hnil]
    · rw [ht, OrdMap.tally, hnil]
      exact maxTotalBytes_nonneg
  induction rounds generalizing s with
  | zero => exact hempty s h (length_eq_zero_iff.1 (Nat.le_zero.1 hrounds))
  | succ rounds ih =>
    rw [evictOldest]
    split
    · split
      · next hnil => exact hempty s h hnil
      · next oldest others hcons =>
        refine ih (counted_deleteEntry _ h) ?_
        have hlt : (s.entries.entries.filter (·.1 ≠ oldest.1)).length <
            s.entries.entries.length := by
          refine length_filter_lt_length_iff_exists.2 ⟨oldest, ?_, by simp⟩
          rw [hcons]
          exact mem_cons_self
        have hle : s.entries.entries.length ≤ rounds + 1 := hrounds
        rw [OrdMap.size, deleteEntry_entries]
        omega
    · next hwithin =>
      rw [not_or, not_lt, not_lt] at hwithin
      exact hwithin

/-- A prune meets the bounds. -/
theorem accounted_prune (now : ℤ) (h : Counted s) : Accounted (prune now s) := by
  have hexpired : Counted (s.entries.entries.foldl
      (fun t p => if p.2.expiresAt ≤ (now : ℚ) then deleteEntry p.1 t else t) s) :=
    deleteExpired_invariant (fun _ key ht => counted_deleteEntry key ht) now _ h
  have hbounded := bounded_evictOldest _ hexpired (le_refl _)
  exact ⟨counted_prune now h, hbounded.1, hbounded.2⟩

/-! ## What a prune leaves -/

theorem accounted_deleteEntry (key : String) (h : Accounted s) : Accounted (deleteEntry key s) := by
  refine ⟨counted_deleteEntry key h.counted, ?_, ?_⟩
  · rw [OrdMap.size, deleteEntry_entries]
    exact (length_filter_le _ _).trans h.size_le
  · have hle := h.total_le
    rw [deleteEntry]
    split
    · exact hle
    · next existing _ =>
      have hnonneg : (0 : ℤ) ≤ existing.bytes := Int.natCast_nonneg _
      simp only
      omega

theorem get_deleteExpired (now : ℤ) (entries : List (String × LiveZoneEntry N)) (s : State N) :
    (entries.foldl (fun t p => if p.2.expiresAt ≤ (now : ℚ) then deleteEntry p.1 t else t)
      s).entries.get key =
      if ∃ p ∈ entries, p.1 = key ∧ p.2.expiresAt ≤ (now : ℚ) then none else s.entries.get key := by
  induction entries generalizing s with
  | nil => simp
  | cons p entries ih =>
    rw [foldl_cons, ih]
    by_cases hrest : ∃ q ∈ entries, q.1 = key ∧ q.2.expiresAt ≤ (now : ℚ)
    · rw [if_pos hrest, if_pos]
      obtain ⟨q, hq, hkey⟩ := hrest
      exact ⟨q, mem_cons_of_mem _ hq, hkey⟩
    · rw [if_neg hrest]
      have hiff : (∃ q ∈ p :: entries, q.1 = key ∧ q.2.expiresAt ≤ (now : ℚ)) ↔
          p.1 = key ∧ p.2.expiresAt ≤ (now : ℚ) := by
        simp only [mem_cons, exists_eq_or_imp, or_iff_left hrest]
      simp only [hiff]
      by_cases hexpired : p.2.expiresAt ≤ (now : ℚ)
      · rw [if_pos hexpired, get_deleteEntry]
        by_cases hkey : p.1 = key
        · simp [hkey, hexpired]
        · have hne : ¬key = p.1 := fun heq => hkey heq.symm
          simp [hkey, hne]
      · simp [hexpired]

/-- When the bounds are met already, a prune deletes what has expired. -/
theorem get_prune_iff (key : String) (entry : LiveZoneEntry N) (now : ℤ)
    (h : Accounted s) : (prune now s).entries.get key = some entry ↔
      s.entries.get key = some entry ∧ (now : ℚ) < entry.expiresAt := by
  have hexpired : Accounted (s.entries.entries.foldl
      (fun t p => if p.2.expiresAt ≤ (now : ℚ) then deleteEntry p.1 t else t) s) :=
    deleteExpired_invariant (fun _ key ht => accounted_deleteEntry key ht) now _ h
  have hstays : ∀ (rounds : ℕ) (t : State N), Accounted t → evictOldest rounds t = t := by
    intro rounds t ht
    cases rounds with
    | zero => rfl
    | succ rounds =>
      rw [evictOldest, if_neg]
      rw [not_or, not_lt, not_lt]
      exact ⟨ht.size_le, ht.total_le⟩
  rw [prune, hstays _ _ hexpired, get_deleteExpired]
  constructor
  · intro hget
    split at hget
    · cases hget
    · next hlive =>
      refine ⟨hget, not_le.1 fun hle => hlive ⟨(key, entry), get_eq_some.1 hget, rfl, hle⟩⟩
  · rintro ⟨hget, hlt⟩
    rw [if_neg, hget]
    rintro ⟨p, hp, rfl, hle⟩
    have hsame := get_eq_some.2 (show (p.1, p.2) ∈ _ from hp)
    cases hget.symm.trans hsame
    exact absurd hle (not_le.2 hlt)

/-! ## The operations -/

theorem get_deleteEntry_self : (deleteEntry key s).entries.get key = none := by
  rw [get_deleteEntry, if_pos rfl]

section

variable [JsonNumber N] {id : ℕ} {digests : List String} {fields : String}
  {result : CompressionResult N} {field : Field} {now : ℤ} {ttlMs : ℚ}

/-- What a store leaves meets the bounds. -/
theorem accounted_store (h : Accounted s) :
    Accounted (store id key digests fields result field now ttlMs s) := by
  rw [store]
  split
  · exact h
  · simp only
    split
    · exact h
    · refine accounted_prune now ?_
      have hcounted := counted_deleteEntry key h.counted
      simp only [Counted, tally_set_none get_deleteEntry_self, hcounted.symm, entryBytes]
      exact add_comm _ _

theorem waiting_store : (store id key digests fields result field now ttlMs s).waiting =
    s.waiting := by
  rw [store]
  split
  · rfl
  · simp only
    split
    · rfl
    · rw [waiting_prune]
      exact waiting_deleteEntry

/-- What a store leaves was there, or is what is stored. -/
theorem get_store {key' : String}
    (h : (store id key digests fields result field now ttlMs s).entries.get key' = some entry) :
    s.entries.get key' = some entry ∨ key' = key ∧ entry.storedBy = id ∧
      entry.rawItemDigests = digests ∧ entry.rawStableFieldsDigest = fields ∧
      itemsOf result.body field = some entry.transformedPrefix := by
  rw [store] at h
  split at h
  · exact Or.inl h
  · next items hitems =>
    simp only at h
    split at h
    · exact Or.inl h
    · have hget := get_prune _ h
      simp only [get_set] at hget
      split at hget
      · next hkey =>
        cases hget
        exact Or.inr ⟨hkey, rfl, rfl, rfl, hitems⟩
      · next hne =>
        rw [get_deleteEntry, if_neg hne] at hget
        exact Or.inl hget

end

/-- An entry that is used moves to the end. -/
theorem accounted_touch {m : OrdMap String (LiveZoneEntry N)} (h : Accounted s)
    (hget : s.entries.get key = some entry)
    (hm : m = (s.entries.delete key).set key entry) : Accounted { s with entries := m } := by
  have hnone : (s.entries.delete key).get key = none := get_delete_self _ _
  subst hm
  refine ⟨?_, ?_, h.total_le⟩
  · have hcounted := h.counted
    rw [Counted, tally_get hget] at hcounted
    rwa [Counted, tally_set_none hnone]
  · have hset := (perm_set (s.entries.delete key) key entry).length_eq
    have hdelete := (perm_delete hget).length_eq
    rw [delete_of_get_none hnone] at hset
    have hle := h.size_le
    simp only [OrdMap.size, length_cons] at hle hset hdelete ⊢
    omega

/-! ## Requests -/

variable (env : Env N)

/-- What is decided about a request that arrives, and what of the cache is left then. -/
theorem apply_cases (body : Body N) (options : LiveZoneOptions N) (now : ℤ) (s : State N) :
    applyLiveZoneCompression env body options now s = (.passthrough, s) ∨
    (∃ context, resolveLiveZoneContext env body options now = some context ∧
      applyLiveZoneCompression env body options now s = (.full context, prune context.now s)) ∨
    ∃ context previous, resolveLiveZoneContext env body options now = some context ∧
      (prune context.now s).entries.get context.key = some previous ∧
      previous.rawStableFieldsDigest = context.rawStableFieldsDigest ∧
      previous.rawItemDigests <+: context.rawItemDigests ∧
      applyLiveZoneCompression env body options now s = (.reuse body context previous,
        { prune context.now s with
          entries := ((prune context.now s).entries.delete context.key).set context.key
            previous }) := by
  rw [applyLiveZoneCompression]
  split
  · exact Or.inl rfl
  · cases hcontext : resolveLiveZoneContext env body options now with
    | none => exact Or.inl rfl
    | some context =>
      right
      simp only
      split
      · exact Or.inl ⟨context, rfl, rfl⟩
      · next previous hget =>
        split
        · exact Or.inl ⟨context, rfl, rfl⟩
        · next hmatch =>
          rw [not_or, not_not, Bool.not_eq_false, hasExactRawPrefix,
            isPrefixOf_iff_prefix] at hmatch
          exact Or.inr ⟨context, previous, rfl, hget, hmatch.1, hmatch.2, rfl⟩

theorem accounted_apply (body : Body N) (options : LiveZoneOptions N) (now : ℤ)
    (h : Accounted s) : Accounted (applyLiveZoneCompression env body options now s).2 := by
  obtain heq | ⟨context, -, heq⟩ | ⟨context, previous, -, hget, -, -, heq⟩ :=
    apply_cases env body options now s
  · rw [heq]
    exact h
  · rw [heq]
    exact accounted_prune _ h.counted
  · rw [heq]
    exact accounted_touch (accounted_prune _ h.counted) hget rfl

/-- Every step keeps the counter right and the bounds met. -/
theorem accounted_step [JsonNumber N] (e : Event N) (h : Accounted s)
    (hstep : step env s e = some t) : Accounted t := by
  cases e with
  | request id body options now =>
    simp only [step, Option.some.injEq] at hstep
    subst hstep
    exact (accounted_apply env body options now h).congr rfl rfl
  | compressed id result now =>
    obtain ⟨pending, -, rfl⟩ := Option.map_eq_some_iff.1 hstep
    have hdone : Accounted { s with waiting := s.waiting.delete id } := h.congr rfl rfl
    cases pending with
    | passthrough => exact hdone
    | full context => exact accounted_store hdone
    | reuse body context previous =>
      simp only [resume]
      split
      · exact accounted_store hdone
      · exact hdone
  | failed id =>
    obtain ⟨pending, -, rfl⟩ := Option.map_eq_some_iff.1 hstep
    exact h.congr rfl rfl

end OmniRoute.LiveZone
