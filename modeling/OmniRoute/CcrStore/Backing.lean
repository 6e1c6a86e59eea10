import OmniRoute.CcrStore.Tiers
import OmniRoute.Lib.Delimited

/-!
# What keeps a block of the CCR block store

`Backs` says that a block is to be found until a deadline: in the map, or in the table once the
deferred writes have run. `Gone` says that it is in neither. What fades keeps both, as long as the
entries that are evicted are in step with their rows (`Backs.fades`, `Gone.fades`); and so does
putting an entry in place, as long as the block's own entry lasts (`Backs.brings`, `Gone.brings`).
-/

namespace OmniRoute.CcrStore

open CcrEntry

variable {s t : State} {k : String × String} {deadline now : ℤ} {settled : Bool}

/-- The block is in the map until the deadline, or will be in the table until then. -/
structure Backs (s : State) (k : String × String) (deadline : ℤ) (settled : Bool) : Prop where
  covered : ∀ key e, s.ccrStore.get key = some e → e.rowKey = k → deadline ≤ e.expiresAt
  held_or_row : (∃ key e, s.ccrStore.get key = some e ∧ e.rowKey = k ∧
    settledExpiry s k ≠ some e.expiresAt) ∨ ∃ x ∈ settledExpiry s k, deadline ≤ x
  secured : settled = true → Secured s k deadline

/-- The block is not in the map, and will not be in the table. -/
structure Gone (s : State) (k : String × String) : Prop where
  not_held : ∀ key e, s.ccrStore.get key = some e → e.rowKey ≠ k
  no_row : settledExpiry s k = none

/-- Every entry is found where it belongs. -/
def Placed (s : State) : Prop :=
  ∀ key e, s.ccrStore.get key = some e → key = buildStoreKey e.hash e.principalId

theorem Gone.fades (h : Gone s k) (hfades : Fades now s t) : Gone t k where
  not_held key e he hk := by
    obtain ⟨e', he', hblock, -⟩ := hfades.entries key e he
    exact h.not_held key e' he' ((rowKey_eq hblock).symm.trans hk)
  no_row := by
    obtain heq | ⟨hnone, -⟩ := hfades.expiry k
    · exact heq.trans h.no_row
    · exact hnone

/-- What fades keeps a block, if the entries it loses are expired or in step with their rows. -/
theorem Backs.fades (h : Backs s k deadline settled) (hfades : Fades now s t)
    (hnow : now < deadline)
    (hlost : ∀ key e, s.ccrStore.get key = some e → e.rowKey = k → now < e.expiresAt →
      t.ccrStore.get key = none → settledExpiry s k = some e.expiresAt) :
    Backs t k deadline settled := by
  have hlive : ∀ key e, s.ccrStore.get key = some e → e.rowKey = k → now < e.expiresAt :=
    fun key e he hk => hnow.trans_le (h.covered key e he hk)
  constructor
  case covered =>
    intro key e he hk
    obtain ⟨e', he', hblock, hexp⟩ := hfades.entries key e he
    exact hexp ▸ h.covered key e' he' ((rowKey_eq hblock).symm.trans hk)
  case held_or_row =>
    obtain ⟨key, e, he, hk, hne⟩ | ⟨x, hx, hle⟩ := h.held_or_row
    · left
      cases ht : t.ccrStore.get key with
      | none => exact absurd (hlost key e he hk (hlive key e he hk) ht) hne
      | some e' =>
        obtain ⟨e'', he'', hblock, hexp⟩ := hfades.entries key e' ht
        cases he.symm.trans he''
        refine ⟨key, e', ht, (rowKey_eq hblock).trans hk, ?_⟩
        obtain heq | ⟨hnone, -⟩ := hfades.expiry k
        · rwa [heq, hexp]
        · simp [hnone]
    · right
      obtain heq | ⟨-, ⟨x', hx', hexpired⟩ | ⟨key, e, he, hk, hexpired⟩⟩ := hfades.expiry k
      · exact ⟨x, heq ▸ hx, hle⟩
      · cases Option.mem_unique hx hx'
        omega
      · exact absurd hexpired (not_le.2 (hlive key e he hk))
  case secured => exact fun hset => hfades.secured k deadline (h.secured hset) hnow hlive

/-- An entry is put in place, and its row may be written. -/
structure Brings (key : String) (entry : CcrEntry) (s t : State) : Prop where
  place : key = buildStoreKey entry.hash entry.principalId
  get : ∀ key', t.ccrStore.get key' = if key' = key then some entry else s.ccrStore.get key'
  rows : t.ccrBlocks = s.ccrBlocks
  pending : t.pendingWrites = s.pendingWrites ∨
    t.pendingWrites = s.pendingWrites ++ [.persist entry] ∧ s.ccrStore.get key = none
  same : ∀ e, s.ccrStore.get key = some e → e.rowKey = entry.rowKey

variable {key : String} {entry : CcrEntry}

theorem Brings.settledExpiry_ne (h : Brings key entry s t) (hne : entry.rowKey ≠ k) :
    settledExpiry t k = settledExpiry s k := by
  obtain hpending | ⟨hpending, -⟩ := h.pending
  · rw [settledExpiry, hpending, h.rows, settledExpiry]
  · rw [settledExpiry, hpending, h.rows, settledExpiry, List.foldl_append]
    exact if_neg hne

theorem Gone.brings (h : Gone s k) (hb : Brings key entry s t) (hne : entry.rowKey ≠ k) :
    Gone t k where
  not_held key' e he := by
    rw [hb.get] at he
    split at he
    · cases he
      exact hne
    · exact h.not_held key' e he
  no_row := (hb.settledExpiry_ne hne).trans h.no_row

/-- An entry that is brought keeps its own block. -/
theorem Brings.held_or_row (hb : Brings key entry s t) (hk : entry.rowKey = k)
    (hle : deadline ≤ entry.expiresAt) :
    (∃ key e, t.ccrStore.get key = some e ∧ e.rowKey = k ∧
      settledExpiry t k ≠ some e.expiresAt) ∨ ∃ x ∈ settledExpiry t k, deadline ≤ x := by
  by_cases hstep : settledExpiry t k = some entry.expiresAt
  · exact Or.inr ⟨entry.expiresAt, hstep, hle⟩
  · exact Or.inl ⟨key, entry, by simp [hb.get], hk, hstep⟩

theorem Backs.brings (h : Backs s k deadline settled) (hb : Brings key entry s t)
    (hplaced : Placed s) (hle : entry.rowKey = k → deadline ≤ entry.expiresAt) :
    Backs t k deadline settled := by
  constructor
  case covered =>
    intro key' e he hk
    rw [hb.get] at he
    split at he
    · cases he
      exact hle hk
    · exact h.covered key' e he hk
  case held_or_row =>
    by_cases hk : entry.rowKey = k
    · exact hb.held_or_row hk (hle hk)
    · rw [hb.settledExpiry_ne hk]
      obtain ⟨key', e, he, hrow, hne⟩ | hrow := h.held_or_row
      · have hkey : key' ≠ key := by
          rintro rfl
          exact hk ((hb.same e he).symm.trans hrow)
        exact Or.inl ⟨key', e, by rw [hb.get, if_neg hkey, he], hrow, hne⟩
      · exact Or.inr hrow
  case secured =>
    intro hset
    have hsecured := h.secured hset
    obtain hpending | ⟨hpending, hnone⟩ := hb.pending
    · refine ⟨hpending ▸ hsecured.pending, ?_⟩
      rw [PendingFor, hpending, hb.rows]
      exact hsecured.row
    constructor
    · intro write hw hk
      rw [hpending] at hw
      obtain hw | hw := List.mem_append.1 hw
      · exact hsecured.pending write hw hk
      · cases List.mem_singleton.1 hw
        exact ⟨entry.expiresAt, rfl, hle hk⟩
    · rintro ⟨write, hw, hk⟩
      rw [hb.rows]
      by_cases hfor : PendingFor s k
      · exact hsecured.row hfor
      -- The pushed write is the only one, so the row stands as it is to.
      rw [← settledExpiry_of_not_pending hfor]
      rw [hpending] at hw
      obtain hw | hw := List.mem_append.1 hw
      · exact absurd ⟨write, hw, hk⟩ hfor
      · cases List.mem_singleton.1 hw
        obtain ⟨key', e, he, hrow, -⟩ | hrow := h.held_or_row
        · have hkey : key' = key := by
            rw [hplaced key' e he, hb.place]
            have hsame : e.rowKey = entry.rowKey := hrow.trans hk.symm
            simp only [rowKey, Prod.mk.injEq] at hsame
            rw [hsame.1, hsame.2]
          rw [hkey, hnone] at he
          cases he
        · exact hrow

/-- A brought entry keeps its block until it expires. -/
theorem backs_brought (hb : Brings key entry s t) (hplaced : Placed s) :
    Backs t entry.rowKey entry.expiresAt false where
  covered key' e he hk := by
    rw [hb.get] at he
    split at he
    · cases he
      exact le_refl _
    · next hne =>
      simp only [rowKey, Prod.mk.injEq] at hk
      rw [hplaced key' e he, hb.place, hk.1, hk.2] at hne
      exact absurd rfl hne
  held_or_row := hb.held_or_row rfl (le_refl _)
  secured := by simp

theorem Backs.settle (h : Backs s k deadline settled) (hfor : ¬PendingFor s k) (settled' : Bool) :
    Backs s k deadline settled' :=
  ⟨h.covered, h.held_or_row, fun _ =>
    ⟨fun write hw hk => absurd ⟨write, hw, hk⟩ hfor, fun hpending => absurd hpending hfor⟩⟩

/-! ## What an operation does -/

/-- An operation fades the store, and may put an entry in place on the way. -/
inductive Effect (now : ℤ) (s t : State) : Option CcrEntry → Prop
  | fades (h : Fades now s t) : Effect now s t none
  | brings (key : String) (entry : CcrEntry) (u v : State) (before : Fades now s u)
      (brings : Brings key entry u v) (after : Fades now v t) (store : t.ccrStore = v.ccrStore)
      (fresh : ∀ e, s.ccrStore.get key = some e → now < e.expiresAt →
        u.ccrStore.get key ≠ none) : Effect now s t (some entry)

variable {brought : Option CcrEntry}

theorem Placed.fades (h : Placed s) (hfades : Fades now s t) : Placed t := by
  intro key e he
  obtain ⟨e', he', hblock, -⟩ := hfades.entries key e he
  simp only [block, Prod.mk.injEq] at hblock
  rw [hblock.1, hblock.2.1]
  exact h key e' he'

theorem Backs.effect (h : Backs s k deadline settled) (heffect : Effect now s t brought)
    (hplaced : Placed s) (hnow : now < deadline)
    (hlost : ∀ key e, s.ccrStore.get key = some e → e.rowKey = k → now < e.expiresAt →
      t.ccrStore.get key = none → settledExpiry s k = some e.expiresAt)
    (hle : ∀ entry ∈ brought, entry.rowKey = k → deadline ≤ entry.expiresAt) :
    Backs t k deadline settled := by
  cases heffect with
  | fades hfades => exact h.fades hfades hnow hlost
  | brings key entry u v before hb after store fresh =>
    have hu : Backs u k deadline settled := by
      refine h.fades before hnow fun key' e he hk hlive hnone => ?_
      have hne : key' ≠ key := by
        rintro rfl
        exact fresh e he hlive hnone
      exact hlost key' e he hk hlive (by rw [store, hb.get, if_neg hne, hnone])
    have hv := hu.brings hb (hplaced.fades before) (hle entry rfl)
    refine hv.fades after hnow fun key' e he _ _ hnone => ?_
    rw [store, he] at hnone
    cases hnone

theorem Gone.effect (h : Gone s k) (heffect : Effect now s t brought)
    (hne : ∀ entry ∈ brought, entry.rowKey ≠ k) : Gone t k := by
  cases heffect with
  | fades hfades => exact h.fades hfades
  | brings key entry u v before hb after store fresh =>
    exact ((h.fades before).brings hb (hne entry rfl)).fades after

/-- What an operation brings keeps its block. -/
theorem Effect.backs (h : Effect now s t (some entry)) (hplaced : Placed s)
    (hnow : now < entry.expiresAt) : Backs t entry.rowKey entry.expiresAt false := by
  cases h with
  | brings key entry u v before hb after store fresh =>
    refine (backs_brought hb (hplaced.fades before)).fades after hnow fun key' e he _ _ hnone => ?_
    rw [store, he] at hnone
    cases hnone

/-- A deletion that is queued concerns its own row. -/
theorem Backs.push_delete {owner hash : String} (h : Backs s k deadline settled)
    (hne : (owner, hash) ≠ k) :
    Backs { s with pendingWrites := s.pendingWrites ++ [.delete owner hash] } k deadline settled :=
  have hsettled : settledExpiry { s with
      pendingWrites := s.pendingWrites ++ [.delete owner hash] } k = settledExpiry s k := by
    rw [settledExpiry_push]
    exact if_neg hne
  { covered := h.covered
    held_or_row := by
      rw [hsettled]
      exact h.held_or_row
    secured := fun hset => (h.secured hset).push_other hne }

theorem Gone.push_delete {owner hash : String} (h : Gone s k) :
    Gone { s with pendingWrites := s.pendingWrites ++ [.delete owner hash] } k := by
  refine ⟨h.not_held, ?_⟩
  rw [settledExpiry_push, settleWrite]
  split
  · rfl
  · exact h.no_row

variable {env : Env} {owner hash text : String}

theorem get_purgeExpired_of_live {e : CcrEntry} (he : s.ccrStore.get key = some e)
    (hlive : now < e.expiresAt) : (purgeExpired env now s).ccrStore.get key = some e := by
  rw [OrdMap.get_eq_some] at he ⊢
  rw [purgeExpired_entries]
  exact List.mem_filter.2 ⟨he, decide_eq_true hlive⟩

theorem Holds.placed {G : String × String × String × ℕ → Prop} (h : Holds G s) : Placed s :=
  fun key e he => (h.entries key e he).1

/-- The hash of a stored block has no space, so its key tells principal and hash apart. -/
theorem rowKey_of_key {stored : List (String × String)} {e : CcrEntry}
    (h : Holds (History.Genuine env stored) s)
    (he : s.ccrStore.get (buildStoreKey (env.hashContent text) owner) = some e) :
    e.rowKey = (owner, env.hashContent text) := by
  obtain ⟨howner, hhash⟩ := History.entry_of_key h (env.hash_no_space text) he
  rw [rowKey, howner, hhash]

theorem Brings.of_refresh {e e' : CcrEntry} (hplaced : Placed s)
    (he : s.ccrStore.get key = some e) (hsame : e'.rowKey = e.rowKey) :
    Brings key e' s (refreshEntry key e' s) where
  place := by
    simp only [rowKey, Prod.mk.injEq] at hsame
    rw [hplaced key e he, hsame.1, hsame.2]
  get key' := by
    simp only [refreshEntry, OrdMap.get_set, OrdMap.get_delete]
    split <;> rfl
  rows := rfl
  pending := Or.inl rfl
  same e'' he'' := by
    cases he.symm.trans he''
    exact hsame.symm

theorem Brings.of_admission
    (hnone : s.ccrStore.get (buildStoreKey entry.hash entry.principalId) = none) :
    Brings (buildStoreKey entry.hash entry.principalId) entry s
      (admitEntry (buildStoreKey entry.hash entry.principalId) entry s) where
  place := rfl
  get key' := by rw [admitEntry, OrdMap.get_set]
  rows := rfl
  pending := Or.inl rfl
  same e he := by
    rw [hnone] at he
    cases he

/-- With room in the queue, an admitted entry's row is written too. -/
theorem Brings.of_persist
    (hnone : s.ccrStore.get (buildStoreKey entry.hash entry.principalId) = none)
    (henabled : env.durableTierEnabled = true) (hbytes : entry.bytes ≤ maxDurableBlockBytes)
    (hroom : s.pendingWrites.length < maxPendingDurableWrites) :
    Brings (buildStoreKey entry.hash entry.principalId) entry s
      (persistEntry env entry
        (admitEntry (buildStoreKey entry.hash entry.principalId) entry s)) := by
  have hadmit := Brings.of_admission hnone
  have hfull : ¬s.pendingWrites.length ≥ maxPendingDurableWrites := not_le.2 hroom
  have hpersist : persistEntry env entry
      (admitEntry (buildStoreKey entry.hash entry.principalId) entry s) =
      { admitEntry (buildStoreKey entry.hash entry.principalId) entry s with
        pendingWrites := s.pendingWrites ++ [.persist entry] } := by
    simp [persistEntry, deferDurable, henabled, hbytes.not_gt, admitEntry, hfull]
  rw [hpersist]
  exact ⟨rfl, hadmit.get, rfl, Or.inr ⟨rfl, hnone⟩, hadmit.same⟩

theorem pendingWrites_budgets (env : Env) (owner : String) (bytes : ℕ) (s : State) :
    (enforceGlobalBudget env owner bytes
      (enforcePrincipalBudget env owner bytes s).2).2.pendingWrites = s.pendingWrites := by
  refine enforceGlobalBudget_invariant (I := fun t => t.pendingWrites = s.pendingWrites)
    (fun _ _ _ ht _ => ht) ?_
  exact enforcePrincipalBudget_invariant (I := fun t => t.pendingWrites = s.pendingWrites)
    (fun _ _ _ ht _ => ht) rfl

/-- A store of a block small enough brings an entry of its block, with the new expiry. -/
theorem store_effect {stored : List (String × String)} (principalId : Option String)
    (ttlSeconds : Option ℚ) (hacc : Accounted s) (hgenuine : Holds (History.Genuine env stored) s)
    (henabled : env.durableTierEnabled = true) (hbytes : text.utf8ByteSize ≤ maxDurableBlockBytes)
    (hroom : (purgeExpired env now s).pendingWrites.length < maxPendingDurableWrites) :
    ∃ entry, Effect now s (tryStoreBlock env text principalId ttlSeconds now s).2 (some entry) ∧
      entry.rowKey = (ownerOf principalId, env.hashContent text) ∧
      entry.expiresAt = now + normalizeTtlSeconds ttlSeconds * 1000 := by
  have hpurge := fades_purgeExpired env now s
  have hplaced := (holds_purgeExpired env now hgenuine).placed
  simp only [tryStoreBlock]
  cases hget : (purgeExpired env now s).ccrStore.get
      (buildStoreKey (env.hashContent text) (ownerOf principalId)) with
  | some existing =>
    have hkey := rowKey_of_key (holds_purgeExpired env now hgenuine) hget
    refine ⟨_, .brings _ _ _ _ hpurge (.of_refresh hplaced hget ?_) (fades_refl now _) rfl ?_, ?_,
      rfl⟩
    · rfl
    · simp [hget]
    · exact hkey
  | none =>
    have hbudgets := hpurge.trans (@fades_budgets env _ (ownerOf principalId) text.utf8ByteSize now)
    rw [storeFresh_stored ttlSeconds now (accounted_purgeExpired env now hacc)
      (hbytes.trans (by decide))]
    refine ⟨_, .brings _ _ _ _ hbudgets (.of_persist (get_budgets_none hget) henabled hbytes ?_)
      (fades_refl now _) rfl fun e he hlive => ?_, rfl, rfl⟩
    · rwa [pendingWrites_budgets]
    · rw [get_purgeExpired_of_live he hlive] at hget
      cases hget

theorem readmitEntry_cases (now : ℤ)
    (hnone : s.ccrStore.get (buildStoreKey entry.hash entry.principalId) = none) :
    Fades now s (readmitEntry env entry.hash entry s) ∨
      ∃ u, Fades now s u ∧ Brings (buildStoreKey entry.hash entry.principalId) entry u
        (readmitEntry env entry.hash entry s) := by
  simp only [readmitEntry]
  split
  · split
    · exact Or.inr ⟨_, fades_budgets now, .of_admission (get_budgets_none hnone)⟩
    · exact Or.inl (fades_budgets now)
  · exact Or.inl (fades_enforcePrincipalBudget now)

theorem getActiveEntry_ccrBlocks : (getActiveEntry env key now s).2.ccrBlocks = s.ccrBlocks := by
  rw [getActiveEntry]
  split
  · rfl
  · split
    · exact History.removeEntry_ccrBlocks true
    · rfl

/-- What a retrieve brings is the block's own row, and only if it has no unexpired entry. -/
def FromRow (s : State) (k : String × String) (now : ℤ) (entry : CcrEntry) : Prop :=
  entry.rowKey = k ∧
    (∀ e ∈ s.ccrStore.get (buildStoreKey k.2 k.1), e.expiresAt ≤ now) ∧
    ∃ row ∈ s.ccrBlocks.get k, now < row.expiresAt ∧ entry.expiresAt = row.expiresAt

theorem retrieve_effect (env : Env) (hash : String) (principalId : Option String) (now : ℤ)
    (diskReads : Bool) (s : State) :
    ∃ brought, Effect now s (retrieveBlock env hash principalId now diskReads s).2 brought ∧
      ∀ entry ∈ brought, FromRow s (ownerOf principalId, hash) now entry := by
  have hnothing : ∀ t, Fades now s t → ∃ brought, Effect now s t brought ∧
      ∀ entry ∈ brought, FromRow s (ownerOf principalId, hash) now entry :=
    fun t ht => ⟨none, .fades ht, by simp⟩
  have hfades := fades_getActiveEntry env (buildStoreKey hash (ownerOf principalId)) now s
  simp only [retrieveBlock]
  obtain ⟨entry, hget, -, ha⟩ | ⟨s', ha, hnone, hexpired⟩ :=
    getActiveEntry_cases env (buildStoreKey hash (ownerOf principalId)) now s
  · rw [ha]
    exact hnothing _ (fades_refreshEntry hget rfl rfl)
  · have hrows : (getActiveEntry env (buildStoreKey hash (ownerOf principalId)) now s).2.ccrBlocks =
      s.ccrBlocks := getActiveEntry_ccrBlocks
    rw [ha] at hrows hfades ⊢
    simp only at hrows hfades ⊢
    rw [rehydrateEntry]
    split
    · exact hnothing _ hfades
    have hload := fades_loadCcrBlock (ownerOf principalId) hash now s'
    obtain ⟨row, hrow, hlive, heq⟩ | ⟨t, heq, -⟩ := loadCcrBlock_cases (ownerOf principalId) hash
      now s'
    · rw [heq]
      simp only
      obtain hgone | ⟨u, hu, hb⟩ := @readmitEntry_cases s' ⟨hash, ownerOf principalId,
        row.content, row.bytes, row.createdAt, now, row.expiresAt⟩ env now hnone
      · exact hnothing _ ((hfades.trans hgone).trans fades_touchCcrBlock)
      · refine ⟨_, .brings _ _ u _ (hfades.trans hu) hb fades_touchCcrBlock rfl ?_,
          fun entry hentry => ?_⟩
        · exact fun e he hlive' => absurd (hexpired e he) (not_le.2 hlive')
        · cases hentry
          exact ⟨rfl, hexpired, row, hrows ▸ hrow, hlive, rfl⟩
    · rw [heq] at hload ⊢
      exact hnothing _ (hfades.trans hload)

end OmniRoute.CcrStore
