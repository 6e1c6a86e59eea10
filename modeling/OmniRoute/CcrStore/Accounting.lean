import OmniRoute.CcrStore.Store
import OmniRoute.Lib.EvictLoop

/-!
# The counters and bounds of the CCR block store

The byte counters are kept by hand: every path that takes an entry out of the map takes its bytes
off the total and off its principal, and every path that puts one in adds them. `Accounted` says
that they are right and that the bounds hold; `accounted_step` says that every operation keeps
it. The eviction loops remove an entry in each round, so with as many rounds as there are
entries they end with the budget met, or with nothing left to evict
(`enforcePrincipalBudget_done`, `enforceGlobalBudget_done`).

A block of an admissible size always fits in the end, so a store is only rejected for the size of
its block, before anything is evicted (`storeFresh_rejected`).
-/

namespace OmniRoute.CcrStore

open List OrdMap Nat Or

variable {env : Env} {s t : State} {key owner hash : String} {entry : CcrEntry} {bytes : ℕ}
  {now : ℤ}

/-- What the counters count and where they stand. -/
def State.memory (s : State) : OrdMap String CcrEntry × OrdMap String ℕ × ℕ :=
  (s.ccrStore, s.principalBytesMap, s.ccrTotalBytes)

def entryBytes (p : String × CcrEntry) : ℕ := p.2.bytes

def ownBytes (owner : String) (p : String × CcrEntry) : ℕ :=
  if p.2.principalId = owner then p.2.bytes else 0

/-- The counters are the sums over the entries held, and the bounds hold. -/
structure Accounted (s : State) : Prop where
  total : s.ccrTotalBytes = s.ccrStore.tally entryBytes
  principal : ∀ owner, principalBytes owner s = s.ccrStore.tally (ownBytes owner)
  size_le : s.ccrStore.size ≤ maxCcrEntries
  total_le : s.ccrTotalBytes ≤ maxCcrGlobalBytes
  principal_le : ∀ owner, principalBytes owner s ≤ maxCcrPrincipalBytes

theorem accounted_init : Accounted .init where
  total := rfl
  principal _ := rfl
  size_le := zero_le _
  total_le := zero_le _
  principal_le _ := zero_le _

theorem Accounted.congr (h : Accounted s) (hmem : t.memory = s.memory) : Accounted t := by
  obtain ⟨store, bytesMap, total, _, _, _⟩ := t
  obtain ⟨rfl, rfl, rfl⟩ : store = s.ccrStore ∧ bytesMap = s.principalBytesMap ∧
      total = s.ccrTotalBytes := by simpa [State.memory] using hmem
  exact ⟨h.total, h.principal, h.size_le, h.total_le, h.principal_le⟩

/-! ## The durable tier leaves the memory alone -/

@[simp] theorem memory_deferDurable (write : DurableWrite) (droppable : Bool) :
    (deferDurable write droppable s).memory = s.memory := by
  rw [deferDurable]
  split <;> rfl

@[simp] theorem memory_persistEntry : (persistEntry env entry s).memory = s.memory := by
  rw [persistEntry]
  split
  · rfl
  · exact memory_deferDurable _ _

@[simp] theorem memory_forgetEntry : (forgetEntry env hash owner s).memory = s.memory := by
  rw [forgetEntry]
  split
  · rfl
  · exact memory_deferDurable _ _

@[simp] theorem memory_touchCcrBlock : (touchCcrBlock owner hash now s).memory = s.memory := rfl

theorem memory_persistCcrBlock : (persistCcrBlock entry now s).memory = s.memory := by
  rw [persistCcrBlock]
  split <;> rfl

theorem memory_drainWrite (succeeds : Bool) : (drainWrite succeeds now s).memory = s.memory := by
  cases hw : s.pendingWrites with
  | nil => simp [drainWrite, hw]
  | cons write writes =>
    simp only [drainWrite, hw]
    split
    · rfl
    · cases write with
      | persist row => exact memory_persistCcrBlock
      | delete owner hash => rfl

/-! ## Taking entries out -/

theorem getD_subtractBytes (m : OrdMap String ℕ) (owner q : String) :
    ((subtractBytes owner bytes m).get q).getD 0 =
      if q = owner then (m.get q).getD 0 - bytes else (m.get q).getD 0 := by
  rw [subtractBytes]
  by_cases hq : q = owner
  · subst hq
    split
    · next h => simp [h]
    · simp
  · split
    · simp [hq, get_delete]
    · simp [hq, get_set]

theorem size_of_get {κ ν : Type*} [DecidableEq κ] {m : OrdMap κ ν} {k : κ} {v : ν}
    (h : m.get k = some v) : m.size = (m.delete k).size + 1 :=
  (perm_delete h).length_eq

theorem accounted_dropEntry (h : Accounted s) (hget : s.ccrStore.get key = some entry) :
    Accounted (dropEntry key entry s) := by
  have htotal := tally_get (f := entryBytes) hget
  have hown : ∀ q, principalBytes q (dropEntry key entry s) =
      (s.ccrStore.delete key).tally (ownBytes q) := by
    intro q
    have hq := tally_get (f := ownBytes q) hget
    have hold := h.principal q
    rw [principalBytes] at hold ⊢
    simp only [dropEntry, getD_subtractBytes]
    by_cases hqe : q = entry.principalId
    · subst hqe
      have hself : ownBytes entry.principalId (key, entry) = entry.bytes := if_pos rfl
      rw [if_pos rfl, hold, hq, hself]
      exact Nat.add_sub_cancel_left ..
    · have hne : ¬entry.principalId = q := fun heq => hqe heq.symm
      rw [if_neg hqe, hold, hq]
      simp [ownBytes, hne]
  constructor
  case total =>
    simp only [dropEntry, h.total, htotal, entryBytes]
    omega
  case principal => exact hown
  case size_le =>
    have hsize := size_of_get hget
    have hle := h.size_le
    simp only [dropEntry]
    omega
  case total_le => exact (sub_le _ _).trans h.total_le
  case principal_le =>
    intro q
    refine le_trans ?_ (h.principal_le q)
    simp only [principalBytes, dropEntry, getD_subtractBytes]
    split
    · exact sub_le _ _
    · exact le_refl _

theorem accounted_removeEntry (env : Env) (key : String) (expired : Bool) (h : Accounted s) :
    Accounted (removeEntry env key expired s) := by
  cases hget : s.ccrStore.get key with
  | none => simpa [removeEntry, hget] using h
  | some entry =>
    have hdrop := accounted_dropEntry h hget
    simp only [removeEntry, hget]
    split
    · exact hdrop.congr memory_forgetEntry
    · exact hdrop

theorem accounted_purgeExpired (env : Env) (now : ℤ) (h : Accounted s) :
    Accounted (purgeExpired env now s) := by
  rw [purgeExpired]
  generalize s.ccrStore.entries = entries
  induction entries generalizing s with
  | nil => exact h
  | cons p entries ih =>
    rw [foldl_cons]
    split
    · exact ih (accounted_removeEntry env _ true h)
    · exact ih h

theorem accounted_getActiveEntry (env : Env) (key : String) (now : ℤ) (h : Accounted s) :
    Accounted (getActiveEntry env key now s).2 := by
  rw [getActiveEntry]
  split
  · exact h
  · split
    · exact accounted_removeEntry env _ true h
    · exact h

/-! ## The eviction loops -/

/-- An eviction takes one entry out of the map and nothing else happens. -/
theorem evict_eq {p : CcrEntry → Bool} (h : evictOldestMatching env p s = some t) :
    ∃ key entry, s.ccrStore.get key = some entry ∧ p entry = true ∧
      t = dropEntry key entry s := by
  rw [evictOldestMatching, Option.map_eq_some_iff] at h
  obtain ⟨q, hq, rfl⟩ := h
  have hget : s.ccrStore.get q.1 = some q.2 :=
    get_eq_some.2 (mem_of_find?_eq_some hq)
  have hp : p q.2 = true := by
    have := find?_some hq
    exact this
  exact ⟨q.1, q.2, hget, hp, by simp [removeEntry, hget]⟩

theorem evict_eq_none {p : CcrEntry → Bool} (h : evictOldestMatching env p s = none) :
    ∀ q ∈ s.ccrStore.entries, p q.2 = false := by
  rw [evictOldestMatching, Option.map_eq_none_iff, find?_eq_none] at h
  exact fun q hq => by simpa using h q hq

/-- `evict_eq` for the choice of `enforceGlobalBudget`. -/
theorem evict_own_or_any_eq (h : ((evictOldestMatching env (ownedBy owner) s).orElse
    fun _ => evictOldestMatching env (fun _ => true) s) = some t) :
    ∃ key entry, s.ccrStore.get key = some entry ∧ t = dropEntry key entry s := by
  cases hown : evictOldestMatching env (ownedBy owner) s with
  | some t' =>
    rw [hown] at h
    cases h
    obtain ⟨key, entry, hget, -, rfl⟩ := evict_eq hown
    exact ⟨key, entry, hget, rfl⟩
  | none =>
    rw [hown, Option.orElse_none] at h
    obtain ⟨key, entry, hget, -, rfl⟩ := evict_eq h
    exact ⟨key, entry, hget, rfl⟩

theorem evict_own_or_any_none (h : ((evictOldestMatching env (ownedBy owner) s).orElse
    fun _ => evictOldestMatching env (fun _ => true) s) = none) : s.ccrStore.entries = [] := by
  cases hown : evictOldestMatching env (ownedBy owner) s with
  | some t' =>
    rw [hown] at h
    cases h
  | none =>
    rw [hown, Option.orElse_none] at h
    refine eq_nil_iff_forall_not_mem.2 fun q hq => ?_
    have := evict_eq_none h q hq
    cases this

theorem evictForPrincipal_isLoop (env : Env) (owner : String) (bytes : ℕ) :
    EvictLoop.IsLoop (fun s => principalBytes owner s + bytes > maxCcrPrincipalBytes)
      (evictOldestMatching env (ownedBy owner)) (evictForPrincipal env owner bytes) where
  zero _ := rfl
  succ rounds s := by
    rw [evictForPrincipal]
    cases evictOldestMatching env (ownedBy owner) s <;> rfl

theorem evictForAll_isLoop (env : Env) (owner : String) (bytes : ℕ) :
    EvictLoop.IsLoop (fun s => overBudget bytes s = true)
      (fun s => (evictOldestMatching env (ownedBy owner) s).orElse
        fun _ => evictOldestMatching env (fun _ => true) s) (evictForAll env owner bytes) where
  zero _ := rfl
  succ rounds s := by
    rw [evictForAll]
    cases (evictOldestMatching env (ownedBy owner) s).orElse
      fun _ => evictOldestMatching env (fun _ => true) s <;> rfl

theorem size_dropEntry (hget : s.ccrStore.get key = some entry) :
    (dropEntry key entry s).ccrStore.size < s.ccrStore.size := by
  rw [size_of_get hget]
  exact lt_succ_self _

theorem evict_of_size_zero (p : CcrEntry → Bool) (h : s.ccrStore.size = 0) :
    evictOldestMatching env p s = none := by
  rw [evictOldestMatching, length_eq_zero_iff.1 h]
  rfl

/-- The budget of a principal ends up met, or with none of its entries left. -/
theorem enforcePrincipalBudget_done (env : Env) (owner : String) (bytes : ℕ) (s : State) :
    principalBytes owner (enforcePrincipalBudget env owner bytes s).2 + bytes ≤
        maxCcrPrincipalBytes ∨
      ∀ q ∈ (enforcePrincipalBudget env owner bytes s).2.ccrStore.entries,
        ownedBy owner q.2 = false := by
  refine ((evictForPrincipal_isLoop env owner bytes).done (·.ccrStore.size)
    (fun t => evict_of_size_zero _) (fun t t' ht => ?_) _ le_rfl).imp not_lt.1 evict_eq_none
  obtain ⟨key, entry, hget, -, rfl⟩ := evict_eq ht
  exact size_dropEntry hget

/-- The global budget ends up met, or with no entry left. -/
theorem enforceGlobalBudget_done (env : Env) (owner : String) (bytes : ℕ) (s : State) :
    overBudget bytes (enforceGlobalBudget env owner bytes s).2 = false ∨
      (enforceGlobalBudget env owner bytes s).2.ccrStore.entries = [] := by
  refine ((evictForAll_isLoop env owner bytes).done (·.ccrStore.size)
    (fun t ht => ?_) (fun t t' ht => ?_) _ le_rfl).imp Bool.eq_false_iff.2 evict_own_or_any_none
  · rw [evict_of_size_zero _ ht, evict_of_size_zero _ ht]
    rfl
  · obtain ⟨key, entry, hget, rfl⟩ := evict_own_or_any_eq ht
    exact size_dropEntry hget

section

variable {I : State → Prop}
  (hdrop : ∀ s key entry, I s → s.ccrStore.get key = some entry → I (dropEntry key entry s))
include hdrop

/-- What every eviction keeps, both budgets keep. -/
theorem enforcePrincipalBudget_invariant (h : I s) :
    I (enforcePrincipalBudget env owner bytes s).2 := by
  refine (evictForPrincipal_isLoop env owner bytes).invariant (fun t t' ht hevict => ?_) _ h
  obtain ⟨key, entry, hget, -, rfl⟩ := evict_eq hevict
  exact hdrop t key entry ht hget

theorem enforceGlobalBudget_invariant (h : I s) : I (enforceGlobalBudget env owner bytes s).2 := by
  refine (evictForAll_isLoop env owner bytes).invariant (fun t t' ht hevict => ?_) _ h
  obtain ⟨key, entry, hget, rfl⟩ := evict_own_or_any_eq hevict
  exact hdrop t key entry ht hget

end

theorem accounted_enforcePrincipalBudget (env : Env) (owner : String) (bytes : ℕ)
    (h : Accounted s) : Accounted (enforcePrincipalBudget env owner bytes s).2 :=
  enforcePrincipalBudget_invariant (fun _ _ _ h hget => accounted_dropEntry h hget) h

theorem accounted_enforceGlobalBudget (env : Env) (owner : String) (bytes : ℕ)
    (h : Accounted s) : Accounted (enforceGlobalBudget env owner bytes s).2 :=
  enforceGlobalBudget_invariant (fun _ _ _ h hget => accounted_dropEntry h hget) h

/-- The bytes of a principal only shrink while entries are evicted. -/
theorem principalBytes_enforceGlobalBudget (env : Env) (owner : String) (bytes : ℕ) (s : State)
    (q : String) : principalBytes q (enforceGlobalBudget env owner bytes s).2 ≤ principalBytes q s := by
  refine enforceGlobalBudget_invariant (I := fun t => principalBytes q t ≤ principalBytes q s)
    (fun t key entry h hget => ?_) (le_refl _)
  refine le_trans ?_ h
  simp only [principalBytes, dropEntry, getD_subtractBytes]
  split
  · exact sub_le _ _
  · exact le_refl _

/-- A block within a principal's allowance fits once its entries are gone. -/
theorem principalFits_of_accounted (env : Env) (owner : String) (h : Accounted s)
    (hbytes : bytes ≤ maxCcrPrincipalBytes) :
    (enforcePrincipalBudget env owner bytes s).1 = true := by
  have hacc := accounted_enforcePrincipalBudget env owner bytes h
  obtain hfits | hgone := enforcePrincipalBudget_done env owner bytes s
  · exact decide_eq_true hfits
  · have hzero : principalBytes owner (enforcePrincipalBudget env owner bytes s).2 = 0 := by
      rw [hacc.principal]
      refine tally_eq_zero fun q hq => ?_
      have hne : ¬q.2.principalId = owner := by simpa [ownedBy] using hgone q hq
      exact if_neg hne
    have hle : principalBytes owner (enforcePrincipalBudget env owner bytes s).2 + bytes ≤
        maxCcrPrincipalBytes := by
      rwa [hzero, zero_add]
    exact decide_eq_true hle

/-- Once a block fits in the global budget, there is room for its entry. -/
theorem room_enforceGlobalBudget (hfits : (enforceGlobalBudget env owner bytes s).1 = true) :
    (enforceGlobalBudget env owner bytes s).2.ccrStore.size < maxCcrEntries ∧
      (enforceGlobalBudget env owner bytes s).2.ccrTotalBytes + bytes ≤ maxCcrGlobalBytes := by
  refine ⟨?_, by simpa [enforceGlobalBudget] using hfits⟩
  obtain hbudget | hempty := enforceGlobalBudget_done env owner bytes s
  · simp only [overBudget, decide_eq_false_iff_not, not_or, not_le] at hbudget
    exact hbudget.1
  · have hsize : (enforceGlobalBudget env owner bytes s).2.ccrStore.size = 0 :=
      length_eq_zero_iff.2 hempty
    rw [hsize]
    decide

/-- Any block within the global allowance fits in the end. -/
theorem globalFits_of_accounted (env : Env) (owner : String) (h : Accounted s)
    (hbytes : bytes ≤ maxCcrGlobalBytes) :
    (enforceGlobalBudget env owner bytes s).1 = true := by
  have hacc := accounted_enforceGlobalBudget env owner bytes h
  obtain hbudget | hempty := enforceGlobalBudget_done env owner bytes s
  · simp only [overBudget, decide_eq_false_iff_not, not_or, not_lt] at hbudget
    exact decide_eq_true hbudget.2
  · have hzero : (enforceGlobalBudget env owner bytes s).2.ccrTotalBytes = 0 := by
      rw [hacc.total]
      refine tally_eq_zero fun q hq => ?_
      have hnot : q ∉ (enforceGlobalBudget env owner bytes s).2.ccrStore.entries :=
        hempty ▸ not_mem_nil
      exact absurd hq hnot
    have hle : (enforceGlobalBudget env owner bytes s).2.ccrTotalBytes + bytes ≤
        maxCcrGlobalBytes := by
      rwa [hzero, zero_add]
    exact decide_eq_true hle

/-! ## Putting entries in -/

theorem accounted_admitEntry (h : Accounted s) (hget : s.ccrStore.get key = none)
    (hsize : s.ccrStore.size < maxCcrEntries)
    (htotal : s.ccrTotalBytes + entry.bytes ≤ maxCcrGlobalBytes)
    (hprincipal : principalBytes entry.principalId s + entry.bytes ≤ maxCcrPrincipalBytes) :
    Accounted (admitEntry key entry s) := by
  have hown : ∀ q, principalBytes q (admitEntry key entry s) =
      principalBytes q s + if entry.principalId = q then entry.bytes else 0 := by
    intro q
    by_cases hq : q = entry.principalId
    · subst hq
      simp [principalBytes, admitEntry]
    · have hne : ¬entry.principalId = q := fun heq => hq heq.symm
      simp [principalBytes, admitEntry, get_set, hq, hne]
  constructor
  case total =>
    simp only [admitEntry, tally_set_none hget, h.total, entryBytes]
    exact add_comm _ _
  case principal =>
    intro q
    rw [hown, h.principal]
    simp only [admitEntry, tally_set_none hget, ownBytes]
    exact add_comm _ _
  case size_le =>
    have hperm := (perm_set s.ccrStore key entry).length_eq
    rw [length_cons, delete_of_get_none hget] at hperm
    simp only [admitEntry, OrdMap.size, hperm]
    exact hsize
  case total_le => exact htotal
  case principal_le =>
    intro q
    rw [hown]
    split
    · next heq => exact heq ▸ hprincipal
    · exact h.principal_le q

/-- A refreshed entry counts as before. -/
theorem accounted_refreshEntry {entry' : CcrEntry} (h : Accounted s)
    (hget : s.ccrStore.get key = some entry) (hbytes : entry'.bytes = entry.bytes)
    (hprincipal : entry'.principalId = entry.principalId) :
    Accounted (refreshEntry key entry' s) := by
  have hnone : (s.ccrStore.delete key).get key = none := get_delete_self _ _
  have htally : ∀ f : String × CcrEntry → ℕ, f (key, entry') = f (key, entry) →
      (refreshEntry key entry' s).ccrStore.tally f = s.ccrStore.tally f := by
    intro f hf
    simp only [refreshEntry, tally_set_none hnone, tally_get hget, hf]
  constructor
  case total =>
    rw [htally _ hbytes]
    exact h.total
  case principal =>
    intro q
    rw [htally _ (by simp [ownBytes, hbytes, hprincipal])]
    exact h.principal q
  case size_le =>
    have hsize := size_of_get hget
    have hperm := (perm_set (s.ccrStore.delete key) key entry').length_eq
    rw [length_cons, delete_of_get_none hnone] at hperm
    have hle := h.size_le
    simp only [OrdMap.size] at hsize hle
    simp only [refreshEntry, OrdMap.size, hperm]
    omega
  case total_le => exact h.total_le
  case principal_le => exact h.principal_le

/-! ## The operations -/

theorem get_removeEntry_self (expired : Bool) :
    (removeEntry env key expired s).ccrStore.get key = none := by
  cases hget : s.ccrStore.get key with
  | none => simp [removeEntry, hget]
  | some entry =>
    have hdrop : (dropEntry key entry s).ccrStore.get key = none := get_delete_self _ _
    simp only [removeEntry, hget]
    split
    · have hmem : (forgetEntry env entry.hash entry.principalId (dropEntry key entry s)).ccrStore =
          (dropEntry key entry s).ccrStore := congrArg Prod.fst memory_forgetEntry
      rw [hmem, hdrop]
    · exact hdrop

/-- An entry that is not active is not in the map any more. -/
theorem getActiveEntry_cases (env : Env) (key : String) (now : ℤ) (s : State) :
    (∃ entry, s.ccrStore.get key = some entry ∧ now < entry.expiresAt ∧
      getActiveEntry env key now s = (some entry, s)) ∨
    ∃ t, getActiveEntry env key now s = (none, t) ∧ t.ccrStore.get key = none ∧
      ∀ entry ∈ s.ccrStore.get key, entry.expiresAt ≤ now := by
  rw [getActiveEntry]
  cases hget : s.ccrStore.get key with
  | none => exact inr ⟨s, rfl, hget, by simp⟩
  | some entry =>
    by_cases hexpired : entry.expiresAt ≤ now
    · exact inr ⟨_, if_pos hexpired, get_removeEntry_self true, by simpa using hexpired⟩
    · exact inl ⟨entry, rfl, not_le.1 hexpired, if_neg hexpired⟩

theorem get_dropEntry_none {key' : String} (h : s.ccrStore.get key = none) :
    (dropEntry key' entry s).ccrStore.get key = none := by
  simp only [dropEntry, get_delete]
  split
  · rfl
  · exact h

theorem get_budgets_none (h : s.ccrStore.get key = none) :
    (enforceGlobalBudget env owner bytes
      (enforcePrincipalBudget env owner bytes s).2).2.ccrStore.get key = none := by
  refine enforceGlobalBudget_invariant (I := fun t => t.ccrStore.get key = none)
    (fun _ _ _ ht _ => get_dropEntry_none ht) ?_
  exact enforcePrincipalBudget_invariant (I := fun t => t.ccrStore.get key = none)
    (fun _ _ _ ht _ => get_dropEntry_none ht) h

/-- An entry that passes both budgets is admitted within the bounds. -/
theorem accounted_admitEntry_of_fits (h : Accounted s) (hget : s.ccrStore.get key = none)
    (hprincipal : (enforcePrincipalBudget env entry.principalId entry.bytes s).1 = true)
    (hglobal : (enforceGlobalBudget env entry.principalId entry.bytes
      (enforcePrincipalBudget env entry.principalId entry.bytes s).2).1 = true) :
    Accounted (admitEntry key entry (enforceGlobalBudget env entry.principalId entry.bytes
      (enforcePrincipalBudget env entry.principalId entry.bytes s).2).2) := by
  have hp := accounted_enforcePrincipalBudget env entry.principalId entry.bytes h
  have hg := accounted_enforceGlobalBudget env entry.principalId entry.bytes hp
  obtain ⟨hroom, htotal⟩ := room_enforceGlobalBudget hglobal
  have hbudget : principalBytes entry.principalId
      (enforcePrincipalBudget env entry.principalId entry.bytes s).2 + entry.bytes ≤
        maxCcrPrincipalBytes := of_decide_eq_true hprincipal
  have hshrink := principalBytes_enforceGlobalBudget env entry.principalId entry.bytes
    (enforcePrincipalBudget env entry.principalId entry.bytes s).2 entry.principalId
  exact accounted_admitEntry hg (get_budgets_none hget) hroom htotal
    ((Nat.add_le_add_right hshrink _).trans hbudget)

theorem accounted_readmitEntry (h : Accounted s)
    (hget : s.ccrStore.get (buildStoreKey hash entry.principalId) = none) :
    Accounted (readmitEntry env hash entry s) := by
  have hp := accounted_enforcePrincipalBudget env entry.principalId entry.bytes h
  simp only [readmitEntry]
  split
  · next hprincipal =>
    split
    · next hglobal => exact accounted_admitEntry_of_fits h hget hprincipal hglobal
    · exact accounted_enforceGlobalBudget env entry.principalId entry.bytes hp
  · exact hp

/-- What reading the row of a block gives. -/
theorem loadCcrBlock_cases (owner hash : String) (now : ℤ) (s : State) :
    (∃ row, s.ccrBlocks.get (owner, hash) = some row ∧ now < row.expiresAt ∧
      loadCcrBlock owner hash now s = (some { row with principalId := owner, hash := hash }, s)) ∨
    ∃ t, loadCcrBlock owner hash now s = (none, t) ∧
      (∀ row ∈ s.ccrBlocks.get (owner, hash), row.expiresAt ≤ now) ∧
      (t = s ∨ t = deleteCcrBlockRow owner hash s) := by
  rw [loadCcrBlock]
  cases hrow : s.ccrBlocks.get (owner, hash) with
  | none => exact inr ⟨s, rfl, by simp, inl rfl⟩
  | some row =>
    by_cases hexpired : row.expiresAt ≤ now
    · exact inr ⟨_, if_pos hexpired, by simpa using hexpired, inr rfl⟩
    · exact inl ⟨row, rfl, not_le.1 hexpired, by simp [hexpired]⟩

theorem accounted_rehydrateEntry (h : Accounted s) (now : ℤ) (diskReads : Bool)
    (hget : s.ccrStore.get (buildStoreKey hash owner) = none) :
    Accounted (rehydrateEntry env hash owner now diskReads s).2 := by
  rw [rehydrateEntry]
  split
  · exact h
  · obtain ⟨row, -, -, hload⟩ | ⟨t, hload, -, rfl | rfl⟩ := loadCcrBlock_cases owner hash now s
    · rw [hload]
      exact (accounted_readmitEntry h hget).congr memory_touchCcrBlock
    · rwa [hload]
    · rw [hload]
      exact h.congr rfl

variable (ttlSeconds : Option ℚ)

/-- A block that is not too large is always stored. -/
theorem storeFresh_stored {text : String} (now : ℤ) (h : Accounted s)
    (hbytes : text.utf8ByteSize ≤ maxCcrBlockBytes) :
    storeFresh env text owner ttlSeconds now s =
      let entry : CcrEntry := ⟨env.hashContent text, owner, text, text.utf8ByteSize, now, now,
        now + normalizeTtlSeconds ttlSeconds * 1000⟩
      (.stored (env.hashContent text) entry,
        persistEntry env entry (admitEntry (buildStoreKey (env.hashContent text) owner) entry
          (enforceGlobalBudget env owner text.utf8ByteSize
            (enforcePrincipalBudget env owner text.utf8ByteSize s).2).2)) := by
  have hprincipal := principalFits_of_accounted env owner h
    (hbytes.trans (by decide : maxCcrBlockBytes ≤ maxCcrPrincipalBytes))
  have hglobal := globalFits_of_accounted env owner
    (accounted_enforcePrincipalBudget env owner text.utf8ByteSize h)
    (hbytes.trans (by decide : maxCcrBlockBytes ≤ maxCcrGlobalBytes))
  simp [storeFresh, hbytes.not_gt, hprincipal, hglobal]

theorem storeFresh_too_large {text : String} (now : ℤ)
    (hbytes : ¬text.utf8ByteSize ≤ maxCcrBlockBytes) :
    storeFresh env text owner ttlSeconds now s =
      (.rejected (env.hashContent text) .block_too_large, s) := by
  rw [storeFresh, if_pos (Nat.lt_of_not_le hbytes)]

/-- Only a block that is too large is rejected, and then nothing else happens. -/
theorem storeFresh_rejected {text : String} {ttlSeconds : Option ℚ} {reason : StoreRejection}
    (h : Accounted s)
    (hrejected : (storeFresh env text owner ttlSeconds now s).1 = .rejected hash reason) :
    (storeFresh env text owner ttlSeconds now s).2 = s := by
  by_cases hbytes : text.utf8ByteSize ≤ maxCcrBlockBytes
  · rw [storeFresh_stored ttlSeconds now h hbytes] at hrejected
    cases hrejected
  · rw [storeFresh_too_large ttlSeconds now hbytes]

theorem accounted_storeFresh {text : String} (now : ℤ) (h : Accounted s)
    (hget : s.ccrStore.get (buildStoreKey (env.hashContent text) owner) = none) :
    Accounted (storeFresh env text owner ttlSeconds now s).2 := by
  by_cases hbytes : text.utf8ByteSize ≤ maxCcrBlockBytes
  · have hprincipal := principalFits_of_accounted env owner h
      (hbytes.trans (by decide : maxCcrBlockBytes ≤ maxCcrPrincipalBytes))
    have hglobal := globalFits_of_accounted env owner
      (accounted_enforcePrincipalBudget env owner text.utf8ByteSize h)
      (hbytes.trans (by decide : maxCcrBlockBytes ≤ maxCcrGlobalBytes))
    rw [storeFresh_stored ttlSeconds now h hbytes]
    exact Accounted.congr (accounted_admitEntry_of_fits h hget hprincipal hglobal)
      memory_persistEntry
  · rwa [storeFresh_too_large ttlSeconds now hbytes]

/-- Every operation keeps the counters right and the bounds met. -/
theorem accounted_step (e : Event) (h : Accounted s) : Accounted (step env s e) := by
  cases e with
  | store text principalId ttlSeconds now =>
    have hpurge := accounted_purgeExpired env now h
    simp only [step, tryStoreBlock]
    split
    · next existing hget => exact accounted_refreshEntry hpurge hget rfl rfl
    · next hget => exact accounted_storeFresh ttlSeconds now hpurge hget
  | retrieve hash principalId now diskReads =>
    have hactive := accounted_getActiveEntry env (buildStoreKey hash (ownerOf principalId)) now h
    simp only [step, retrieveBlock]
    obtain ⟨entry, hget, -, heq⟩ | ⟨t, heq, hget, -⟩ :=
      getActiveEntry_cases env (buildStoreKey hash (ownerOf principalId)) now s
    · rw [heq]
      exact accounted_refreshEntry h hget rfl rfl
    · rw [heq] at hactive ⊢
      exact accounted_rehydrateEntry hactive now diskReads hget
  | inspect hash principalId now => exact accounted_getActiveEntry env _ now h
  | list principalId now => exact accounted_purgeExpired env now h
  | delete hash principalId => exact (accounted_removeEntry env _ false h).congr memory_forgetEntry
  | drain succeeds now => exact h.congr (memory_drainWrite succeeds)

end OmniRoute.CcrStore
