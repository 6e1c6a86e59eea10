import OmniRoute.CcrStore.Isolation

/-!
# The two tiers of the CCR block store

The row of a block will be what the deferred writes make of it: `settledExpiry` is when the row
expires once the queue has run. Most of what happens to the store only takes things away, and
`Fades` says what: entries leave the map, and a row that is to stay is only lost when it has
expired, or when the block's expired entry has. Purges, evictions, misses and the writes
themselves all fade the store (`fades_removeEntry`, `fades_budgets`, `fades_drainWrite`, ...).
-/

namespace OmniRoute.CcrStore

open List OrdMap Or CcrEntry

variable {env : Env} {s t u : State} {key owner hash : String} {entry : CcrEntry} {bytes : ℕ}
  {now : ℤ}

/-- The row a deferred write is about. -/
def DurableWrite.target : DurableWrite → String × String
  | .persist row => (row.principalId, row.hash)
  | .delete owner hash => (owner, hash)

/-- When the row expires after the write; `none` if it is gone. -/
def DurableWrite.expiry : DurableWrite → Option ℤ
  | .persist row => some row.expiresAt
  | .delete _ _ => none

def settleWrite (k : String × String) (expiry : Option ℤ) (write : DurableWrite) : Option ℤ :=
  if write.target = k then write.expiry else expiry

/-- When the row of a block expires once all deferred writes have run. -/
def settledExpiry (s : State) (k : String × String) : Option ℤ :=
  s.pendingWrites.foldl (settleWrite k) ((s.ccrBlocks.get k).map (·.expiresAt))

/-- A deferred write of the block's row has not run yet. -/
def PendingFor (s : State) (k : String × String) : Prop := ∃ write ∈ s.pendingWrites, write.target = k

instance (s : State) (k : String × String) : Decidable (PendingFor s k) :=
  inferInstanceAs (Decidable (∃ write ∈ s.pendingWrites, write.target = k))

def CcrEntry.rowKey (e : CcrEntry) : String × String := (e.principalId, e.hash)

/-- The row of a block lasts until the deadline while its deferred writes run. -/
structure Secured (s : State) (k : String × String) (deadline : ℤ) : Prop where
  pending : ∀ write ∈ s.pendingWrites, write.target = k → ∃ x ∈ write.expiry, deadline ≤ x
  row : PendingFor s k → ∃ x ∈ (s.ccrBlocks.get k).map (·.expiresAt), deadline ≤ x

/-- `t` is what may be left of `s` at time `now`. -/
structure Fades (now : ℤ) (s t : State) : Prop where
  entries : ∀ key e, t.ccrStore.get key = some e →
    ∃ e', s.ccrStore.get key = some e' ∧ e.block = e'.block ∧ e.expiresAt = e'.expiresAt
  expiry : ∀ k, settledExpiry t k = settledExpiry s k ∨ settledExpiry t k = none ∧
    ((∃ x ∈ settledExpiry s k, x ≤ now) ∨
      ∃ key e, s.ccrStore.get key = some e ∧ e.rowKey = k ∧ e.expiresAt ≤ now)
  secured : ∀ k deadline, Secured s k deadline → now < deadline →
    (∀ key e, s.ccrStore.get key = some e → e.rowKey = k → now < e.expiresAt) → Secured t k deadline

/-! ## The settled expiry -/

variable {k : String × String}

theorem foldl_settleWrite_of_not_target {writes : List DurableWrite}
    (h : ∀ write ∈ writes, write.target ≠ k) (expiry : Option ℤ) :
    writes.foldl (settleWrite k) expiry = expiry := by
  induction writes generalizing expiry with
  | nil => rfl
  | cons write writes ih =>
    have hne : write.target ≠ k := h write mem_cons_self
    rw [foldl_cons, settleWrite, if_neg hne]
    exact ih (fun w hw => h w (mem_cons_of_mem _ hw)) expiry

/-- With no write of the block pending, the row is as it stands. -/
theorem settledExpiry_of_not_pending (h : ¬PendingFor s k) :
    settledExpiry s k = (s.ccrBlocks.get k).map (·.expiresAt) :=
  foldl_settleWrite_of_not_target (fun write hw heq => h ⟨write, hw, heq⟩) _

theorem settledExpiry_push (k : String × String) (write : DurableWrite) :
    settledExpiry { s with pendingWrites := s.pendingWrites ++ [write] } k =
      settleWrite k (settledExpiry s k) write := by
  simp [settledExpiry]

/-- With a write of the block pending, the row as it stands plays no part. -/
theorem foldl_settleWrite_of_target {writes : List DurableWrite}
    (h : ∃ write ∈ writes, write.target = k) (x y : Option ℤ) :
    writes.foldl (settleWrite k) x = writes.foldl (settleWrite k) y := by
  induction writes generalizing x y with
  | nil => simp at h
  | cons write writes ih =>
    rw [foldl_cons, foldl_cons]
    by_cases htarget : write.target = k
    · simp [settleWrite, htarget]
    · obtain ⟨w, hw, hk⟩ := h
      obtain rfl | hw := mem_cons.1 hw
      · exact absurd hk htarget
      · exact ih ⟨w, hw, hk⟩ _ _

/-- A write of another block does not matter. -/
theorem Secured.push_other {deadline : ℤ} {write : DurableWrite}
    {store : OrdMap String CcrEntry} {principals : OrdMap String ℕ} {total : ℕ}
    (h : Secured s k deadline) (hne : write.target ≠ k) :
    Secured ⟨store, principals, total, s.pendingWrites ++ [write], s.ccrBlocks,
      s.writesSincePrune⟩ k deadline := by
  constructor
  · intro w hw hk
    obtain hw | hw := mem_append.1 hw
    · exact h.pending w hw hk
    · cases mem_singleton.1 hw
      exact absurd hk hne
  · rintro ⟨w, hw, hk⟩
    obtain hw | hw := mem_append.1 hw
    · exact h.row ⟨w, hw, hk⟩
    · cases mem_singleton.1 hw
      exact absurd hk hne

/-! ## What fades the store -/

/-- Entries leave the map, and nothing else happens. -/
theorem fades_of_entries
    (hentries : ∀ key e, t.ccrStore.get key = some e →
      ∃ e', s.ccrStore.get key = some e' ∧ e.block = e'.block ∧ e.expiresAt = e'.expiresAt)
    (hpending : t.pendingWrites = s.pendingWrites) (hrows : t.ccrBlocks = s.ccrBlocks) :
    Fades now s t where
  entries := hentries
  expiry k := inl (by rw [settledExpiry, settledExpiry, hpending, hrows])
  secured k deadline hsecured _ _ := by
    refine ⟨hpending ▸ hsecured.pending, fun hfor => ?_⟩
    rw [PendingFor, hpending] at hfor
    rw [hrows]
    exact hsecured.row hfor

theorem fades_refl (now : ℤ) (s : State) : Fades now s s :=
  fades_of_entries (fun _ e he => ⟨e, he, rfl, rfl⟩) rfl rfl

theorem CcrEntry.rowKey_eq {e e' : CcrEntry} (h : e.block = e'.block) : e.rowKey = e'.rowKey := by
  simp only [block, Prod.mk.injEq] at h
  rw [rowKey, rowKey, h.1, h.2.1]

theorem Fades.trans (h : Fades now s t) (h' : Fades now t u) : Fades now s u := by
  constructor
  · intro key e he
    obtain ⟨e', he', hblock', hexp'⟩ := h'.entries key e he
    obtain ⟨e'', he'', hblock, hexp⟩ := h.entries key e' he'
    exact ⟨e'', he'', hblock'.trans hblock, hexp'.trans hexp⟩
  · intro k
    obtain heq | ⟨hnone, hwhy⟩ := h'.expiry k
    · obtain heq' | ⟨hnone', hwhy'⟩ := h.expiry k
      · exact inl (heq.trans heq')
      · exact inr ⟨heq.trans hnone', hwhy'⟩
    · obtain heq' | ⟨-, hwhy'⟩ := h.expiry k
      · refine inr ⟨hnone, ?_⟩
        obtain ⟨x, hx, hle⟩ | ⟨key, e, he, hk, hle⟩ := hwhy
        · exact inl ⟨x, heq' ▸ hx, hle⟩
        · obtain ⟨e', he', hblock, hexp⟩ := h.entries key e he
          exact inr ⟨key, e', he', (rowKey_eq hblock).symm.trans hk, hexp ▸ hle⟩
      · exact inr ⟨hnone, hwhy'⟩
  · intro k deadline hsecured hlt hlive
    refine h'.secured k deadline (h.secured k deadline hsecured hlt hlive) hlt fun key e he hk => ?_
    obtain ⟨e', he', hblock, hexp⟩ := h.entries key e he
    exact hexp ▸ hlive key e' he' ((rowKey_eq hblock).symm.trans hk)

theorem get_dropEntry {key' : String} {e : CcrEntry}
    (h : (dropEntry key' entry s).ccrStore.get key = some e) : s.ccrStore.get key = some e := by
  simp only [dropEntry, get_delete] at h
  split at h
  · cases h
  · exact h

theorem fades_dropEntry : Fades now s (dropEntry key entry s) :=
  fades_of_entries (fun _ e he => ⟨e, get_dropEntry he, rfl, rfl⟩) rfl rfl

theorem fades_removeEntry (expired : Bool)
    (hexpired : ∀ e, s.ccrStore.get key = some e → expired = true → e.expiresAt ≤ now) :
    Fades now s (removeEntry env key expired s) := by
  cases hget : s.ccrStore.get key with
  | none =>
    simp only [removeEntry, hget]
    exact fades_refl now s
  | some entry =>
    simp only [removeEntry, hget]
    split
    · next htrue =>
      rw [forgetEntry]
      split
      · exact fades_dropEntry
      · rw [deferDurable, if_neg (by simp)]
        have hexp : entry.expiresAt ≤ now := hexpired entry hget htrue
        refine ⟨fun _ e he => ⟨e, @get_dropEntry s _ entry key e he, rfl, rfl⟩, fun k => ?_,
          fun k deadline hsecured _ hlive => ?_⟩
        · rw [settledExpiry_push, settleWrite]
          split
          · next hk => exact inr ⟨rfl, inr ⟨key, entry, hget, hk, hexp⟩⟩
          · exact inl rfl
        · -- The block is not the one whose entry has expired.
          have hne : entry.rowKey ≠ k := fun hk => absurd hexp (not_le.2 (hlive key entry hget hk))
          refine hsecured.push_other ?_
          exact hne
    · exact fades_dropEntry

theorem fades_purgeExpired (env : Env) (now : ℤ) (s : State) :
    Fades now s (purgeExpired env now s) := by
  have hfold : ∀ (entries : List (String × CcrEntry)) (t : State), Fades now s t →
      (∀ p ∈ entries, s.ccrStore.get p.1 = some p.2) →
      Fades now s (entries.foldl
        (fun t p => if p.2.expiresAt ≤ now then removeEntry env p.1 true t else t) t) := by
    intro entries
    induction entries with
    | nil => exact fun t ht _ => ht
    | cons p entries ih =>
      intro t ht hentries
      rw [foldl_cons]
      refine ih _ ?_ fun q hq => hentries q (mem_cons_of_mem _ hq)
      split
      · next hexpired =>
        refine ht.trans (fades_removeEntry true fun e he _ => ?_)
        obtain ⟨e', he', -, hexp⟩ := ht.entries p.1 e he
        rw [hentries p mem_cons_self] at he'
        cases he'
        exact hexp ▸ hexpired
      · exact ht
  exact hfold _ s (fades_refl now s) fun p hp => get_eq_some.2 hp

theorem fades_getActiveEntry (env : Env) (key : String) (now : ℤ) (s : State) :
    Fades now s (getActiveEntry env key now s).2 := by
  rw [getActiveEntry]
  split
  · exact fades_refl now s
  · next entry hget =>
    split
    · next hexpired =>
      refine fades_removeEntry true fun e he _ => ?_
      rw [hget] at he
      cases he
      exact hexpired
    · exact fades_refl now s

theorem fades_enforcePrincipalBudget (now : ℤ) :
    Fades now s (enforcePrincipalBudget env owner bytes s).2 :=
  enforcePrincipalBudget_invariant (I := fun t => Fades now s t)
    (fun _ _ _ h _ => h.trans fades_dropEntry) (fades_refl now s)

theorem fades_budgets (now : ℤ) : Fades now s (enforceGlobalBudget env owner bytes
    (enforcePrincipalBudget env owner bytes s).2).2 :=
  enforceGlobalBudget_invariant (I := fun t => Fades now s t)
    (fun _ _ _ h _ => h.trans fades_dropEntry) (fades_enforcePrincipalBudget now)

/-- A refreshed entry that keeps its expiry. -/
theorem fades_refreshEntry {entry' : CcrEntry} (hget : s.ccrStore.get key = some entry)
    (hblock : entry'.block = entry.block) (hexp : entry'.expiresAt = entry.expiresAt) :
    Fades now s (refreshEntry key entry' s) := by
  refine fades_of_entries (fun k e he => ?_) rfl rfl
  simp only [refreshEntry, get_set, get_delete] at he
  split at he
  · next hk =>
    cases he
    exact ⟨entry, hk ▸ hget, hblock, hexp⟩
  · exact ⟨e, he, rfl, rfl⟩

/-- Rows that are lost before the deferred writes run. -/
theorem fades_rows {rows : OrdMap (String × String) CcrEntry}
    (h : ∀ k, (rows.get k).map (·.expiresAt) = (s.ccrBlocks.get k).map (·.expiresAt) ∨
      (rows.get k).map (·.expiresAt) = none ∧
        ∃ x ∈ (s.ccrBlocks.get k).map (·.expiresAt), x ≤ now) (n : ℕ) :
    Fades now s { s with ccrBlocks := rows, writesSincePrune := n } := by
  refine ⟨fun _ e he => ⟨e, he, rfl, rfl⟩, fun k => ?_, fun k deadline hsecured hlt _ => ?_⟩
  · by_cases hpending : PendingFor s k
    · exact inl (foldl_settleWrite_of_target hpending _ _)
    have ht : ¬PendingFor { s with ccrBlocks := rows, writesSincePrune := n } k := hpending
    rw [settledExpiry_of_not_pending hpending, settledExpiry_of_not_pending ht]
    obtain heq | ⟨hnone, hwhy⟩ := h k
    · exact inl heq
    · exact inr ⟨hnone, inl hwhy⟩
  · refine ⟨hsecured.pending, fun hpending => ?_⟩
    obtain ⟨x, hx, hle⟩ := hsecured.row hpending
    obtain heq | ⟨-, x', hx', hexpired⟩ := h k
    · exact ⟨x, heq ▸ hx, hle⟩
    · cases Option.mem_unique hx hx'
      omega

theorem fades_touchCcrBlock : Fades now s (touchCcrBlock owner hash now s) := by
  refine fades_rows (fun k => inl ?_) s.writesSincePrune
  rw [get_modify]
  split
  · simp [Function.comp_def]
  · rfl

theorem fades_pruneExpiredCcrBlocks (n : ℕ) :
    Fades now s (pruneExpiredCcrBlocks now { s with writesSincePrune := n }) := by
  refine fades_rows (fun k => ?_) n
  rw [get_filter]
  cases hget : s.ccrBlocks.get k with
  | none => exact inl rfl
  | some row =>
    by_cases hlive : now < row.expiresAt
    · exact inl (by simp [Option.filter, hlive])
    · exact inr ⟨by simp [Option.filter, hlive], row.expiresAt, rfl, not_lt.1 hlive⟩

theorem fades_deleteCcrBlockRow
    (hexpired : ∀ row, s.ccrBlocks.get (owner, hash) = some row → row.expiresAt ≤ now) :
    Fades now s (deleteCcrBlockRow owner hash s) := by
  refine fades_rows (fun k => ?_) s.writesSincePrune
  rw [get_delete]
  split
  · next hk =>
    subst hk
    cases hget : s.ccrBlocks.get (owner, hash) with
    | none => exact inl rfl
    | some row => exact inr ⟨rfl, row.expiresAt, rfl, hexpired row hget⟩
  · exact inl rfl

/-- A deferred write that runs makes the row what it was to become. -/
theorem fades_drainWrite (now : ℤ) (s : State) : Fades now s (drainWrite true now s) := by
  cases hw : s.pendingWrites with
  | nil =>
    simp only [drainWrite, hw]
    exact fades_refl now s
  | cons write writes =>
    have hsettled : ∀ (rows : OrdMap (String × String) CcrEntry) (n : ℕ),
        (∀ k, (rows.get k).map (·.expiresAt) =
          settleWrite k ((s.ccrBlocks.get k).map (·.expiresAt)) write) →
        Fades now s { s with pendingWrites := writes, ccrBlocks := rows, writesSincePrune := n } := by
      intro rows n hrows
      refine ⟨fun _ e he => ⟨e, he, rfl, rfl⟩, fun k => inl ?_, fun k deadline hsecured _ _ => ?_⟩
      · simp only [settledExpiry, hw, foldl_cons, hrows k]
      · refine ⟨fun w hmem => hsecured.pending w (hw ▸ mem_cons_of_mem _ hmem), ?_⟩
        rintro ⟨w, hmem, hk⟩
        simp only [hrows k, settleWrite]
        split
        · next htarget => exact hsecured.pending write (hw ▸ mem_cons_self) htarget
        · exact hsecured.row ⟨w, hw ▸ mem_cons_of_mem _ hmem, hk⟩
    cases write with
    | delete o h =>
      have hpop := hsettled (s.ccrBlocks.delete (o, h)) s.writesSincePrune fun k => by
        rw [get_delete, settleWrite]
        by_cases hk : k = (o, h)
        · simp [hk, DurableWrite.target, DurableWrite.expiry]
        · have hne : ¬(o, h) = k := fun heq => hk heq.symm
          simp [hk, hne, DurableWrite.target]
      simpa [drainWrite, hw, deleteCcrBlockRow] using hpop
    | persist row =>
      have hpop := fun n => hsettled (s.ccrBlocks.set (row.principalId, row.hash) row) n fun k => by
        rw [get_set, settleWrite]
        by_cases hk : k = (row.principalId, row.hash)
        · simp [hk, DurableWrite.target, DurableWrite.expiry]
        · have hne : ¬(row.principalId, row.hash) = k := fun heq => hk heq.symm
          simp [hk, hne, DurableWrite.target]
      simp only [drainWrite, hw, persistCcrBlock]
      split
      · next hfalse => cases hfalse
      · split
        · exact (hpop s.writesSincePrune).trans (fades_pruneExpiredCcrBlocks 0)
        · exact hpop (s.writesSincePrune + 1)

theorem fades_loadCcrBlock (owner hash : String) (now : ℤ) (s : State) :
    Fades now s (loadCcrBlock owner hash now s).2 := by
  obtain ⟨row, -, -, hload⟩ | ⟨t, hload, hexpired, rfl | rfl⟩ :=
    loadCcrBlock_cases owner hash now s
  · rw [hload]
    exact fades_refl now s
  · rw [hload]
    exact fades_refl now t
  · rw [hload]
    exact fades_deleteCcrBlockRow hexpired

end OmniRoute.CcrStore
