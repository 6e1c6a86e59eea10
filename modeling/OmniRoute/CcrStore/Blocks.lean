import OmniRoute.CcrStore.Accounting

/-!
# What the entries, rows and deferred writes of the store are about

An operation moves blocks between the map, the queue of deferred writes and the durable table; it
never changes which block an entry is about. So a property of blocks that every stored block has
is a property of all of them (`Holds`), and in the map and the table a block is found under its
own principal and hash.

`purgeExpired_entries` says what a purge leaves: the entries that are not expired, in their order.
-/

namespace OmniRoute.CcrStore

open List OrdMap

variable {env : Env} {s t : State} {key owner hash : String} {entry : CcrEntry} {bytes : ℕ}
  {now : ℤ}

/-- The principal, hash, content and size of an entry. -/
def CcrEntry.block (e : CcrEntry) : String × String × String × ℕ :=
  (e.principalId, e.hash, e.content, e.bytes)

/-- Every block in the store has the property, and is found where it belongs. -/
structure Holds (G : String × String × String × ℕ → Prop) (s : State) : Prop where
  entries : ∀ key e, s.ccrStore.get key = some e →
    key = buildStoreKey e.hash e.principalId ∧ G e.block
  rows : ∀ owner hash row, s.ccrBlocks.get (owner, hash) = some row →
    row.principalId = owner ∧ row.hash = hash ∧ G row.block
  pending : ∀ row, .persist row ∈ s.pendingWrites → G row.block

variable {G G' : String × String × String × ℕ → Prop}

theorem holds_init : Holds G .init where
  entries _ _ h := by cases h
  rows _ _ _ h := by cases h
  pending _ h := by cases h

section

variable (h : Holds G s)
include h

theorem Holds.mono (hG : ∀ b, G b → G' b) : Holds G' s where
  entries key e he := ⟨(h.entries key e he).1, hG _ (h.entries key e he).2⟩
  rows owner hash row hrow :=
    ⟨(h.rows owner hash row hrow).1, (h.rows owner hash row hrow).2.1,
      hG _ (h.rows owner hash row hrow).2.2⟩
  pending row hrow := hG _ (h.pending row hrow)

/-! ## The durable tier -/

omit h in
theorem holds_deferDurable {write : DurableWrite} (droppable : Bool) (h : Holds G s)
    (hwrite : ∀ row, write = .persist row → G row.block) :
    Holds G (deferDurable write droppable s) := by
  rw [deferDurable]
  split
  · exact h
  · refine ⟨h.entries, h.rows, fun row hrow => ?_⟩
    obtain hrow | hrow := mem_append.1 hrow
    · exact h.pending row hrow
    · exact hwrite row (mem_singleton.1 hrow).symm

theorem holds_persistEntry (hG : G entry.block) : Holds G (persistEntry env entry s) := by
  rw [persistEntry]
  split
  · exact h
  · refine holds_deferDurable true h fun row hrow => ?_
    cases hrow
    exact hG

theorem holds_forgetEntry : Holds G (forgetEntry env hash owner s) := by
  rw [forgetEntry]
  split
  · exact h
  · exact holds_deferDurable false h fun row hrow => by cases hrow

theorem holds_deleteCcrBlockRow : Holds G (deleteCcrBlockRow owner hash s) := by
  refine ⟨h.entries, fun o k row hrow => ?_, h.pending⟩
  simp only [deleteCcrBlockRow, get_delete] at hrow
  split at hrow
  · cases hrow
  · exact h.rows o k row hrow

theorem holds_touchCcrBlock : Holds G (touchCcrBlock owner hash now s) := by
  refine ⟨h.entries, fun o k row hrow => ?_, h.pending⟩
  simp only [touchCcrBlock, get_modify] at hrow
  split at hrow
  · obtain ⟨row', hrow', rfl⟩ := Option.map_eq_some_iff.1 hrow
    exact h.rows o k row' hrow'
  · exact h.rows o k row hrow

theorem holds_pruneExpiredCcrBlocks : Holds G (pruneExpiredCcrBlocks now s) := by
  refine ⟨h.entries, fun o k row hrow => ?_, h.pending⟩
  simp only [pruneExpiredCcrBlocks, get_filter] at hrow
  exact h.rows o k row (Option.filter_eq_some_iff.1 hrow).1

theorem holds_persistCcrBlock (hG : G entry.block) : Holds G (persistCcrBlock entry now s) := by
  have hset : Holds G { s with ccrBlocks := s.ccrBlocks.set (entry.principalId, entry.hash) entry } := by
    refine ⟨h.entries, fun o k row hrow => ?_, h.pending⟩
    simp only [get_set] at hrow
    split at hrow
    · next heq =>
      cases hrow
      cases heq
      exact ⟨rfl, rfl, hG⟩
    · exact h.rows o k row hrow
  rw [persistCcrBlock]
  split
  · exact holds_pruneExpiredCcrBlocks ⟨hset.entries, hset.rows, hset.pending⟩
  · exact ⟨hset.entries, hset.rows, hset.pending⟩

omit h in
theorem holds_drainWrite (succeeds : Bool) (h : Holds G s) :
    Holds G (drainWrite succeeds now s) := by
  cases hw : s.pendingWrites with
  | nil => simpa [drainWrite, hw] using h
  | cons write writes =>
    have hpop : Holds G { s with pendingWrites := writes } :=
      ⟨h.entries, h.rows, fun row hrow => h.pending row (hw ▸ mem_cons_of_mem _ hrow)⟩
    simp only [drainWrite, hw]
    split
    · exact hpop
    · cases write with
      | persist row => exact holds_persistCcrBlock hpop (h.pending row (hw ▸ mem_cons_self))
      | delete owner hash => exact holds_deleteCcrBlockRow hpop

/-! ## The map -/

theorem holds_dropEntry : Holds G (dropEntry key entry s) := by
  refine ⟨fun k e he => ?_, h.rows, h.pending⟩
  simp only [dropEntry, get_delete] at he
  split at he
  · cases he
  · exact h.entries k e he

end

theorem holds_removeEntry (env : Env) (key : String) (expired : Bool) (h : Holds G s) :
    Holds G (removeEntry env key expired s) := by
  rw [removeEntry]
  split
  · exact h
  · split
    · exact holds_forgetEntry (holds_dropEntry h)
    · exact holds_dropEntry h

theorem holds_purgeExpired (env : Env) (now : ℤ) (h : Holds G s) :
    Holds G (purgeExpired env now s) := by
  rw [purgeExpired]
  generalize s.ccrStore.entries = entries
  induction entries generalizing s with
  | nil => exact h
  | cons p entries ih =>
    rw [foldl_cons]
    split
    · exact ih (holds_removeEntry env _ true h)
    · exact ih h

theorem holds_getActiveEntry (env : Env) (key : String) (now : ℤ) (h : Holds G s) :
    Holds G (getActiveEntry env key now s).2 := by
  rw [getActiveEntry]
  split
  · exact h
  · split
    · exact holds_removeEntry env _ true h
    · exact h

theorem holds_enforcePrincipalBudget (h : Holds G s) :
    Holds G (enforcePrincipalBudget env owner bytes s).2 :=
  enforcePrincipalBudget_invariant (fun _ _ _ h _ => holds_dropEntry h) h

theorem holds_budgets (env : Env) (owner : String) (bytes : ℕ) (h : Holds G s) :
    Holds G (enforceGlobalBudget env owner bytes
      (enforcePrincipalBudget env owner bytes s).2).2 :=
  enforceGlobalBudget_invariant (fun _ _ _ h _ => holds_dropEntry h)
    (holds_enforcePrincipalBudget h)

theorem holds_admitEntry (entry : CcrEntry) (h : Holds G s) (hG : G entry.block) :
    Holds G (admitEntry (buildStoreKey entry.hash entry.principalId) entry s) := by
  refine ⟨fun k e he => ?_, h.rows, h.pending⟩
  simp only [admitEntry, get_set] at he
  split at he
  · next hk =>
    cases he
    exact ⟨hk, hG⟩
  · exact h.entries k e he

theorem holds_refreshEntry {entry' : CcrEntry} (h : Holds G s)
    (hget : s.ccrStore.get key = some entry) (hblock : entry'.block = entry.block) :
    Holds G (refreshEntry key entry' s) := by
  refine ⟨fun k e he => ?_, h.rows, h.pending⟩
  simp only [refreshEntry, get_set, get_delete] at he
  split at he
  · next hk =>
    cases he
    have hold := h.entries key entry hget
    simp only [CcrEntry.block, Prod.mk.injEq] at hblock
    rw [hblock.1, hblock.2.1, hk]
    refine ⟨hold.1, ?_⟩
    simpa only [CcrEntry.block, hblock.1, hblock.2.1, hblock.2.2.1, hblock.2.2.2] using hold.2
  · exact h.entries k e he

theorem holds_readmitEntry (entry : CcrEntry) (h : Holds G s) (hG : G entry.block) :
    Holds G (readmitEntry env entry.hash entry s) := by
  simp only [readmitEntry]
  split
  · split
    · exact holds_admitEntry entry (holds_budgets env _ _ h) hG
    · exact holds_budgets env _ _ h
  · exact holds_enforcePrincipalBudget h

theorem holds_rehydrateEntry (env : Env) (hash owner : String) (now : ℤ) (diskReads : Bool)
    (h : Holds G s) : Holds G (rehydrateEntry env hash owner now diskReads s).2 := by
  rw [rehydrateEntry]
  split
  · exact h
  · obtain ⟨row, hrow, -, hload⟩ | ⟨t, hload, -, rfl | rfl⟩ :=
      loadCcrBlock_cases owner hash now s
    · obtain ⟨howner, hhash, hG⟩ := h.rows owner hash row hrow
      rw [hload]
      refine holds_touchCcrBlock (holds_readmitEntry ⟨hash, owner, row.content, row.bytes,
        row.createdAt, now, row.expiresAt⟩ h ?_)
      simpa [CcrEntry.block, howner, hhash] using hG
    · rwa [hload]
    · rw [hload]
      exact holds_deleteCcrBlockRow h

/-! ## The operations -/

theorem holds_storeFresh {text : String} (ttlSeconds : Option ℚ) (now : ℤ) (hacc : Accounted s)
    (h : Holds G s) (hG : G (owner, env.hashContent text, text, text.utf8ByteSize)) :
    Holds G (storeFresh env text owner ttlSeconds now s).2 := by
  by_cases hbytes : text.utf8ByteSize ≤ maxCcrBlockBytes
  · rw [storeFresh_stored ttlSeconds now hacc hbytes]
    have hadmit := holds_admitEntry ⟨env.hashContent text, owner, text, text.utf8ByteSize, now,
      now, now + normalizeTtlSeconds ttlSeconds * 1000⟩
      (holds_budgets env owner text.utf8ByteSize h) hG
    exact holds_persistEntry hadmit hG
  · rwa [storeFresh_too_large ttlSeconds now hbytes]

/-- Every operation keeps a property of blocks, if the block a store brings has it. -/
theorem holds_step (e : Event) (hacc : Accounted s) (h : Holds G s)
    (hG : ∀ text principalId ttlSeconds now, e = .store text principalId ttlSeconds now →
      text.utf8ByteSize ≤ maxCcrBlockBytes →
      G (ownerOf principalId, env.hashContent text, text, text.utf8ByteSize)) :
    Holds G (step env s e) := by
  cases e with
  | store text principalId ttlSeconds now =>
    have hpurge := holds_purgeExpired env now h
    simp only [step, tryStoreBlock]
    split
    · next existing hget => exact holds_refreshEntry hpurge hget rfl
    · by_cases hbytes : text.utf8ByteSize ≤ maxCcrBlockBytes
      · exact holds_storeFresh ttlSeconds now (accounted_purgeExpired env now hacc) hpurge
          (hG _ _ _ _ rfl hbytes)
      · rwa [storeFresh_too_large ttlSeconds now hbytes]
  | retrieve hash principalId now diskReads =>
    have hactive := holds_getActiveEntry env (buildStoreKey hash (ownerOf principalId)) now h
    simp only [step, retrieveBlock]
    obtain ⟨entry, hget, -, heq⟩ | ⟨t, heq, -, -⟩ :=
      getActiveEntry_cases env (buildStoreKey hash (ownerOf principalId)) now s
    · rw [heq]
      exact holds_refreshEntry h hget rfl
    · rw [heq] at hactive ⊢
      exact holds_rehydrateEntry env _ _ now diskReads hactive
  | inspect hash principalId now => exact holds_getActiveEntry env _ now h
  | list principalId now => exact holds_purgeExpired env now h
  | delete hash principalId => exact holds_forgetEntry (holds_removeEntry env _ false h)
  | drain succeeds now => exact holds_drainWrite succeeds h

/-! ## What a purge leaves -/

theorem removeEntry_entries (expired : Bool) : (removeEntry env key expired s).ccrStore.entries =
    s.ccrStore.entries.filter (·.1 ≠ key) := by
  cases hget : s.ccrStore.get key with
  | none =>
    simp only [removeEntry, hget]
    exact (delete_of_get_none hget).symm
  | some entry =>
    simp only [removeEntry, hget]
    split
    · have hmem : (forgetEntry env entry.hash entry.principalId (dropEntry key entry s)).ccrStore =
          (dropEntry key entry s).ccrStore := congrArg Prod.fst memory_forgetEntry
      rw [hmem]
      rfl
    · rfl

/-- The entries that are not expired stay, in their order. -/
theorem purgeExpired_entries : (purgeExpired env now s).ccrStore.entries =
    s.ccrStore.entries.filter fun p => decide (now < p.2.expiresAt) := by
  have hfold : ∀ (entries : List (String × CcrEntry)) (s : State),
      (entries.foldl (fun s p => if p.2.expiresAt ≤ now then removeEntry env p.1 true s else s)
        s).ccrStore.entries = s.ccrStore.entries.filter fun p =>
          decide (∀ q ∈ entries, q.2.expiresAt ≤ now → p.1 ≠ q.1) := by
    intro entries
    induction entries with
    | nil => simp
    | cons q entries ih =>
      intro s
      rw [foldl_cons, ih]
      by_cases hexpired : q.2.expiresAt ≤ now
      · rw [if_pos hexpired, removeEntry_entries, filter_filter]
        refine filter_congr fun p _ => Bool.eq_iff_iff.2 ?_
        simp [hexpired, and_comm]
      · rw [if_neg hexpired]
        refine filter_congr fun p _ => Bool.eq_iff_iff.2 ?_
        simp [hexpired]
  rw [purgeExpired, hfold]
  refine filter_congr fun p hp => decide_eq_decide.2 ⟨fun h => ?_, fun h q hq hexpired heq => ?_⟩
  · exact not_le.1 fun hexpired => h p hp hexpired rfl
  · have hsame : p = q := inj_on_of_nodup_map s.ccrStore.nodup hp hq heq
    exact absurd (hsame ▸ hexpired) (not_le.2 h)

end OmniRoute.CcrStore
