import OmniRoute.Lib.Trace
import OmniRoute.QuotaGroups.Combos

/-!
# Isolation of quota groups

The combos of a quota group should be seen by the keys of that group only, and be deleted by the
cleanups of its own pools only. Groups are told apart by the slugs of their names, in the names
that are minted, in the catalog and in both cleanups, and the slug of a name is lossy.

**Main result (`isolated_iff`).** For given pools, groups, connections and models, every sequence
of syncs and removals keeps the groups isolated exactly when their slugs do not collide
(`SlugsApart`): no name minted by a pool of another group carries the slug a usable group is
exposed under, or the slug and the provider a cleanup goes by.
-/

namespace OmniRoute.QuotaDb

open OrdMap

/-! ## Runs -/

/-- The maintenance calls on the combos of a pool. -/
inductive QuotaComboOp
  | sync (poolId : String)
  | remove (poolId : String)

def QuotaComboOp.poolId : QuotaComboOp → String
  | .sync poolId => poolId
  | .remove poolId => poolId

def apply (db : QuotaDb) : QuotaComboOp → Combos → Combos
  | .sync poolId => db.syncQuotaCombos poolId
  | .remove poolId => db.removeQuotaCombosForPool poolId

def step (db : QuotaDb) (combos : Combos) (op : QuotaComboOp) : Option Combos :=
  some (db.apply op combos)

/-- The key sees `name`: in `/v1/models`, or in the list the quota page shows for it. -/
def Listed (db : QuotaDb) (combos : Combos) (allowedQuotas : List String) (name : String) : Prop :=
  (∃ (timestamp : ℕ) (metadataFor : Combo → Unit),
    name ∈ (db.buildQuotaExclusiveModels allowedQuotas combos timestamp metadataFor).map (·.id)) ∨
  name ∈ filterModelsToQuotaPools id combos.keys (db.resolveQuotaKeyScope allowedQuotas).poolSlugs

/-- A key sees only combos minted for a group of its pools, and a call on a pool deletes only
combos minted for no group but the pool's. -/
structure Isolated (db : QuotaDb) (combos : Combos) : Prop where
  catalog : ∀ allowedQuotas name, db.Listed combos allowedQuotas name →
    ∃ combo, combos.get name = some combo ∧ ∃ g ∈ combo.mintedFor, g ∈ db.allowedGroups allowedQuotas
  keeps : ∀ op name combo, combos.get name = some combo → (db.apply op combos).get name = none →
    ∀ g ∈ combo.mintedFor, ∃ pool, db.getPool op.poolId = some pool ∧ pool.groupId = g

/-- The name one upsert of a sync goes to. -/
def mintedName (db : QuotaDb) (pool : QuotaPool) (entry : String × List (String × String)) :
    Option String :=
  entry.2.head?.map fun c => quotaModelName (db.poolGroupName pool) c.2 entry.1

/-- The names a sync of the pool upserts. -/
def mintedNames (db : QuotaDb) (pool : QuotaPool) : List String :=
  (db.byModel pool).entries.filterMap (db.mintedName pool)

/-- What the name a pool mints must not meet in a pool of another group. -/
structure Apart (db : QuotaDb) (p q : QuotaPool) (name : String) (parsed : QuotaModelParts) :
    Prop where
  /-- A group with a usable connection is exposed under another slug. -/
  scope : 0 < (db.groupConnections p.groupId).length → db.scopeSlug p.groupId ≠ db.poolGroupSlug q
  /-- A removal of the other pool goes by another slug or another provider. -/
  removal : db.removeProvider p = some parsed.provider → db.poolGroupSlug p ≠ db.poolGroupSlug q
  /-- So does the prune of its sync, unless it wants the name itself. -/
  prune : db.syncProvider p = some parsed.provider → name ∉ db.desiredNames p →
    db.poolGroupSlug p ≠ db.poolGroupSlug q

/-- The slugs of different groups do not collide. -/
def SlugsApart (db : QuotaDb) : Prop :=
  ∀ p ∈ db.pools, ∀ q ∈ db.pools, p.groupId ≠ q.groupId → ∀ name ∈ db.mintedNames q,
    ∀ parsed, parseQuotaModelName name = some parsed → db.Apart p q name parsed

/-! ## Pools and names -/

variable {db : QuotaDb} {pool : QuotaPool}

theorem getPool_mem {id : String} (h : db.getPool id = some pool) :
    pool ∈ db.pools := List.mem_of_find?_eq_some h

theorem getPool_of_mem (h : pool ∈ db.pools) : db.getPool pool.id = some pool := by
  cases hget : db.getPool pool.id with
  | none =>
    have := List.find?_eq_none.1 hget pool h
    simp at this
  | some found =>
    have hid : found.id = pool.id := by simpa using List.find?_some hget
    rw [List.inj_on_of_nodup_map db.ids_nodup (getPool_mem hget) h hid]

variable {allowedQuotas : List String}

theorem mem_allowedGroups {g : String} :
    g ∈ db.allowedGroups allowedQuotas ↔
      ∃ poolId ∈ allowedQuotas, ∃ pool, db.getPool poolId = some pool ∧ pool.groupId = g := by
  simp only [allowedGroups, List.mem_eraseDups, List.mem_map, List.mem_filterMap]
  constructor
  · rintro ⟨pool, ⟨poolId, hid, hget⟩, rfl⟩
    exact ⟨poolId, hid, pool, hget, rfl⟩
  · rintro ⟨poolId, hid, pool, hget, rfl⟩
    exact ⟨pool, ⟨poolId, hid, hget⟩, rfl⟩

theorem mem_poolSlugs {slug : String} :
    slug ∈ (db.resolveQuotaKeyScope allowedQuotas).poolSlugs ↔
      ∃ g ∈ db.allowedGroups allowedQuotas, 0 < (db.groupConnections g).length ∧
        db.scopeSlug g = slug := by
  unfold resolveQuotaKeyScope
  by_cases h : allowedQuotas.length = 0
  · obtain rfl := List.length_eq_zero_iff.1 h
    simp [allowedGroups]
  · simp only [if_neg h, List.mem_eraseDups, List.mem_map, List.mem_filter, decide_eq_true_eq,
      gt_iff_lt, and_assoc]

variable {name : String}

theorem inQuotaPools_iff {poolSlugs : List String} :
    inQuotaPools poolSlugs name = true ↔
      ∃ parsed, parseQuotaModelName name = some parsed ∧ parsed.groupSlug ∈ poolSlugs := by
  unfold inQuotaPools
  cases hp : parseQuotaModelName name with
  | none => simp
  | some parsed => simp [isQuotaModelName_of_parse hp]

/-- The catalog of a quota key lists the same names as the filter over the combos. -/
theorem buildQuotaExclusiveModels_ids {Metadata : Type} (db : QuotaDb)
    (allowedQuotas : List String) (combos : Combos) (timestamp : ℕ)
    (metadataFor : Combo → Metadata) :
    (db.buildQuotaExclusiveModels allowedQuotas combos timestamp metadataFor).map (·.id) =
      filterModelsToQuotaPools id combos.keys
        (db.resolveQuotaKeyScope allowedQuotas).poolSlugs := by
  unfold buildQuotaExclusiveModels filterModelsToQuotaPools
  dsimp only
  split
  · rfl
  · rw [List.map_filterMap, keys, List.filter_map]
    induction combos.entries with
    | nil => rfl
    | cons entry entries ih =>
      by_cases hin : inQuotaPools (db.resolveQuotaKeyScope allowedQuotas).poolSlugs entry.1 = true
      · rw [List.filterMap_cons_some (b := entry.1) (by simp [hin]),
          List.filter_cons_of_pos (by simpa using hin), List.map_cons, ih]
      · rw [List.filterMap_cons_none (by simp [hin]), List.filter_cons_of_neg (by simpa using hin)]
        exact ih

variable {combos : Combos}

theorem listed_iff :
    db.Listed combos allowedQuotas name ↔
      (∃ combo, combos.get name = some combo) ∧ ∃ parsed, parseQuotaModelName name = some parsed ∧
        parsed.groupSlug ∈ (db.resolveQuotaKeyScope allowedQuotas).poolSlugs := by
  unfold Listed
  simp only [buildQuotaExclusiveModels_ids, exists_const, or_self]
  unfold filterModelsToQuotaPools
  split
  · next h =>
    rw [List.length_eq_zero_iff.1 h]
    simp
  · rw [List.mem_filter, mem_keys, id, inQuotaPools_iff]

/-! ## What a pool mints -/

/-- Every step of a model comes from a member whose provider has the model. -/
def FromWork (work : List UpsertWork) (m : ByModel) : Prop :=
  ∀ modelId conns, m.get modelId = some conns → ∀ c ∈ conns,
    ∃ w ∈ work, w.provider = c.2 ∧ modelId ∈ w.modelIds

theorem byModel_fromWork (db : QuotaDb) (pool : QuotaPool) :
    FromWork (db.upsertWork pool) (db.byModel pool) := by
  have hmodels : ∀ (w : UpsertWork) (ids : List String) (m : ByModel), w ∈ db.upsertWork pool →
      (∀ id ∈ ids, id ∈ w.modelIds) → FromWork (db.upsertWork pool) m →
      FromWork (db.upsertWork pool) (ids.foldl (fun m modelId =>
        m.set modelId ((m.get modelId).getD [] ++ [(w.connId, w.provider)])) m) := by
    intro w ids
    induction ids with
    | nil => exact fun m _ _ hm => hm
    | cons id ids ih =>
      intro m hw hids hm
      refine ih _ hw (fun i hi => hids i (List.mem_cons_of_mem _ hi)) ?_
      intro modelId conns hget c hc
      rw [get_set] at hget
      split at hget
      · next heq =>
        cases hget
        rcases List.mem_append.1 hc with hc | hc
        · cases hold : m.get id with
          | none => simp [hold] at hc
          | some old => exact hm modelId old (heq ▸ hold) c (by simpa [hold] using hc)
        · rw [List.mem_singleton.1 hc]
          exact ⟨w, hw, rfl, heq ▸ hids id List.mem_cons_self⟩
      · exact hm modelId conns hget c hc
  have hall : ∀ (ws : List UpsertWork) (m : ByModel), (∀ w ∈ ws, w ∈ db.upsertWork pool) →
      FromWork (db.upsertWork pool) m → FromWork (db.upsertWork pool) (ws.foldl (fun m work =>
        work.modelIds.foldl (fun m modelId =>
          m.set modelId ((m.get modelId).getD [] ++ [(work.connId, work.provider)])) m) m) := by
    intro ws
    induction ws with
    | nil => exact fun m _ hm => hm
    | cons w ws ih =>
      intro m hws hm
      exact ih _ (fun w' hw' => hws w' (List.mem_cons_of_mem _ hw'))
        (hmodels w w.modelIds m (hws w List.mem_cons_self) (fun _ h => h) hm)
  exact hall _ _ (fun _ h => h) fun modelId conns hget => by simp at hget

/-- A pool wants every name it mints. -/
theorem mintedNames_desired (h : name ∈ db.mintedNames pool) : name ∈ db.desiredNames pool := by
  obtain ⟨⟨modelId, conns⟩, hentry, hname⟩ := List.mem_filterMap.1 h
  obtain ⟨c, hhead, rfl⟩ := Option.map_eq_some_iff.1 hname
  obtain ⟨w, hw, hprovider, hmodel⟩ := byModel_fromWork db pool modelId conns
    (get_eq_some.2 hentry) c (List.mem_of_head? hhead)
  refine List.mem_flatMap.2 ⟨w, hw, List.mem_map.2 ⟨modelId, hmodel, ?_⟩⟩
  rw [hprovider]

/-- A name a pool mints parses, if it does, to the pool's slug. -/
theorem groupSlug_of_minted {parsed : QuotaModelParts} (h : name ∈ db.mintedNames pool)
    (hparse : parseQuotaModelName name = some parsed) :
    parsed.groupSlug = db.poolGroupSlug pool := by
  obtain ⟨⟨modelId, conns⟩, -, hname⟩ := List.mem_filterMap.1 h
  obtain ⟨c, -, rfl⟩ := Option.map_eq_some_iff.1 hname
  exact groupSlug_of_parse hparse

/-- An upsert touches one minted name, and notes the pool's group on it. -/
theorem upsertCombo_cases (db : QuotaDb) (pool : QuotaPool) (combos : Combos)
    {entry : String × List (String × String)} (hentry : entry ∈ (db.byModel pool).entries) :
    db.upsertCombo pool combos entry = combos ∨
      ∃ name combo, name ∈ db.mintedNames pool ∧
        db.upsertCombo pool combos entry = combos.set name combo ∧
        combo.mintedFor = ((combos.get name).map (·.mintedFor)).getD [] ++ [pool.groupId] := by
  obtain ⟨modelId, conns⟩ := entry
  cases conns with
  | nil => exact Or.inl rfl
  | cons c conns =>
    refine Or.inr ⟨_, _, List.mem_filterMap.2 ⟨_, hentry, rfl⟩, rfl, rfl⟩

/-- What every upsert keeps, the upserts of a pool keep. -/
theorem foldl_upsert {P : Combos → Prop}
    (hstep : ∀ combos name combo, P combos → name ∈ db.mintedNames pool →
      combo.mintedFor = ((combos.get name).map (·.mintedFor)).getD [] ++ [pool.groupId] →
      P (combos.set name combo)) (h : P combos) :
    P ((db.byModel pool).entries.foldl (db.upsertCombo pool) combos) := by
  have hall : ∀ entries : List (String × List (String × String)),
      (∀ e ∈ entries, e ∈ (db.byModel pool).entries) → ∀ combos, P combos →
      P (entries.foldl (db.upsertCombo pool) combos) := by
    intro entries
    induction entries with
    | nil => exact fun _ _ h => h
    | cons e entries ih =>
      intro hmem combos h
      refine ih (fun e' he' => hmem e' (List.mem_cons_of_mem _ he')) _ ?_
      rcases db.upsertCombo_cases pool combos (hmem e List.mem_cons_self) with
        heq | ⟨name, combo, hname, heq, hminted⟩
      · rw [heq]
        exact h
      · rw [heq]
        exact hstep combos name combo h hname hminted
  exact hall _ (fun _ h => h) combos h

/-- The names a pool mints are there once they are upserted. -/
theorem minted_upserted (combos : Combos) (h : name ∈ db.mintedNames pool) :
    ((db.byModel pool).entries.foldl (db.upsertCombo pool) combos).get name ≠ none := by
  have hall : ∀ entries : List (String × List (String × String)),
      (∀ e ∈ entries, e ∈ (db.byModel pool).entries) → ∀ combos,
      (combos.get name ≠ none ∨ name ∈ entries.filterMap (db.mintedName pool)) →
      (entries.foldl (db.upsertCombo pool) combos).get name ≠ none := by
    intro entries
    induction entries with
    | nil => simp
    | cons e entries ih =>
      intro hmem combos hor
      refine ih (fun e' he' => hmem e' (List.mem_cons_of_mem _ he')) _ ?_
      obtain ⟨modelId, conns⟩ := e
      cases conns with
      | nil => exact hor
      | cons c conns =>
        have hminted : db.mintedName pool (modelId, c :: conns) =
            some (quotaModelName (db.poolGroupName pool) c.2 modelId) := rfl
        simp only [upsertCombo, get_set]
        rcases hor with hget | hname
        · left
          split
          · simp
          · exact hget
        · rw [List.filterMap_cons_some hminted] at hname
          rcases List.mem_cons.1 hname with rfl | hname
          · exact Or.inl (by simp)
          · exact Or.inr hname
  exact hall _ (fun _ h => h) combos (Or.inr h)

/-! ## Who minted a combo -/

/-- Every quota combo was minted, and only for groups with a pool that mints its name. -/
def Provenance (db : QuotaDb) (combos : Combos) : Prop :=
  ∀ name combo, combos.get name = some combo → isQuotaModelName name = true →
    combo.mintedFor ≠ [] ∧
      ∀ g ∈ combo.mintedFor, ∃ q ∈ db.pools, q.groupId = g ∧ name ∈ db.mintedNames q

theorem Provenance.upsert (h : db.Provenance combos) (hpool : pool ∈ db.pools) :
    db.Provenance ((db.byModel pool).entries.foldl (db.upsertCombo pool) combos) := by
  refine foldl_upsert (P := db.Provenance) (fun combos name combo h hname hminted => ?_) h
  intro name' combo' hget hquota
  rw [get_set] at hget
  split at hget
  · next heq =>
    cases hget
    rw [hminted]
    refine ⟨by simp, fun g hg => ?_⟩
    rcases List.mem_append.1 hg with hg | hg
    · cases hold : combos.get name with
      | none => simp [hold] at hg
      | some old =>
        rw [heq] at hquota ⊢
        exact (h name old hold hquota).2 g (by simpa [hold] using hg)
    · rw [List.mem_singleton.1 hg, heq]
      exact ⟨pool, hpool, rfl, hname⟩
  · exact h name' combo' hget hquota

theorem Provenance.filter (h : db.Provenance combos) (p : String × Combo → Bool) :
    db.Provenance (combos.filter p) := by
  intro name combo hget
  rw [get_filter, Option.filter_eq_some_iff] at hget
  exact h name combo hget.1

theorem Provenance.apply (h : db.Provenance combos) (op : QuotaComboOp) :
    db.Provenance (db.apply op combos) := by
  have hremove : ∀ poolId, db.Provenance (db.removeQuotaCombosForPool poolId combos) := by
    intro poolId
    unfold removeQuotaCombosForPool
    split
    · exact h
    · split
      · exact h
      · exact h.filter _
  cases op with
  | remove poolId => exact hremove poolId
  | sync poolId =>
    show db.Provenance (db.syncQuotaCombos poolId combos)
    unfold syncQuotaCombos
    split
    · exact hremove poolId
    · next pool hpool =>
      have hup := h.upsert (getPool_mem hpool)
      dsimp only
      split
      · exact hup
      · exact hup.filter _

/-- What a cleanup deletes it owns. -/
theorem ownedBy_iff {groupSlug provider : String} :
    ownedBy groupSlug provider name = true ↔ ∃ parsed, parseQuotaModelName name = some parsed ∧
      parsed.groupSlug = groupSlug ∧ parsed.provider = provider := by
  unfold ownedBy
  cases parseQuotaModelName name <;> simp

theorem get_filter_eq_none {p : String × Combo → Bool} {combo : Combo}
    (hget : combos.get name = some combo) :
    (combos.filter p).get name = none ↔ p (name, combo) = false := by
  rw [get_filter, hget, Option.filter_eq_none_iff]
  simp

/-- A combo a removal deletes has the pool's slug and provider. -/
theorem remove_deleted {poolId : String} {combo : Combo} (hget : combos.get name = some combo) :
    (db.removeQuotaCombosForPool poolId combos).get name = none ↔
      ∃ pool provider, db.getPool poolId = some pool ∧ db.removeProvider pool = some provider ∧
        ownedBy (db.poolGroupSlug pool) provider name = true := by
  unfold removeQuotaCombosForPool
  cases hpool : db.getPool poolId with
  | none => simp [hget]
  | some pool =>
    cases hprovider : db.removeProvider pool with
    | none => simp [hget, hprovider]
    | some provider => simp [get_filter_eq_none hget, hprovider]

/-- A combo a sync deletes has the pool's slug and provider, and the pool does not want it. -/
theorem sync_deleted {poolId : String} {combo : Combo} (hget : combos.get name = some combo)
    (hpool : db.getPool poolId = some pool) :
    (db.syncQuotaCombos poolId combos).get name = none ↔
      ∃ provider, db.syncProvider pool = some provider ∧
        ownedBy (db.poolGroupSlug pool) provider name = true ∧ name ∉ db.desiredNames pool := by
  have hup : ∃ combo', ((db.byModel pool).entries.foldl (db.upsertCombo pool) combos).get name =
      some combo' := by
    refine Option.ne_none_iff_exists'.1 (foldl_upsert (P := fun m => m.get name ≠ none) ?_ ?_)
    · intro m name' combo' hm _ _
      rw [get_set]
      split
      · simp
      · exact hm
    · simp [hget]
  obtain ⟨combo', hup⟩ := hup
  simp only [syncQuotaCombos, hpool]
  cases hprovider : db.syncProvider pool with
  | none => simp [hup]
  | some provider => simp [get_filter_eq_none hup]

/-! ## Isolation -/

/-- Apart slugs keep the groups isolated, whatever has been minted so far. -/
theorem Provenance.isolated (h : db.Provenance combos) (hapart : db.SlugsApart) :
    db.Isolated combos where
  catalog allowedQuotas name hlisted := by
    obtain ⟨⟨combo, hget⟩, parsed, hparse, hslug⟩ := listed_iff.1 hlisted
    obtain ⟨hne, hminters⟩ := h name combo hget (isQuotaModelName_of_parse hparse)
    obtain ⟨g, hg⟩ := List.exists_mem_of_ne_nil _ hne
    obtain ⟨q, hq, rfl, hname⟩ := hminters g hg
    refine ⟨combo, hget, q.groupId, hg, ?_⟩
    obtain ⟨g', hg', husable, hscope⟩ := mem_poolSlugs.1 hslug
    obtain ⟨poolId, hid, p, hp, rfl⟩ := mem_allowedGroups.1 hg'
    by_cases hsame : p.groupId = q.groupId
    · exact hsame ▸ hg'
    · refine absurd ?_ ((hapart p (getPool_mem hp) q hq hsame name hname parsed hparse).scope husable)
      rw [hscope, groupSlug_of_minted hname hparse]
  keeps op name combo hget hgone g hg := by
    have hforeign : ∀ pool provider, db.getPool op.poolId = some pool →
        ownedBy (db.poolGroupSlug pool) provider name = true →
        (∀ q ∈ db.pools, ∀ parsed, pool.groupId ≠ q.groupId → name ∈ db.mintedNames q →
          parseQuotaModelName name = some parsed → parsed.provider = provider →
          db.poolGroupSlug pool ≠ db.poolGroupSlug q) →
        ∃ pool, db.getPool op.poolId = some pool ∧ pool.groupId = g := by
      intro pool provider hpool howned hne
      obtain ⟨parsed, hparse, hslug, hprovider⟩ := ownedBy_iff.1 howned
      obtain ⟨q, hq, rfl, hname⟩ := (h name combo hget (isQuotaModelName_of_parse hparse)).2 g hg
      by_cases hsame : pool.groupId = q.groupId
      · exact ⟨pool, hpool, hsame⟩
      · refine absurd ?_ (hne q hq parsed hsame hname hparse hprovider)
        rw [← hslug, groupSlug_of_minted hname hparse]
    have hremove : (db.removeQuotaCombosForPool op.poolId combos).get name = none →
        ∃ pool, db.getPool op.poolId = some pool ∧ pool.groupId = g := by
      intro hgone
      obtain ⟨pool, provider, hpool, hprovider, howned⟩ := (remove_deleted hget).1 hgone
      refine hforeign pool provider hpool howned fun q hq parsed hne hname hparse hp => ?_
      exact (hapart pool (getPool_mem hpool) q hq hne name hname parsed hparse).removal
        (hp ▸ hprovider)
    cases op with
    | remove poolId => exact hremove hgone
    | sync poolId =>
      cases hpool : db.getPool poolId with
      | none =>
        refine hremove ?_
        have heq : db.syncQuotaCombos poolId combos = db.removeQuotaCombosForPool poolId combos := by
          simp only [syncQuotaCombos, hpool]
        exact heq ▸ hgone
      | some pool =>
        obtain ⟨provider, hprovider, howned, hwant⟩ := (sync_deleted hget hpool).1 hgone
        refine hforeign pool provider hpool howned fun q hq parsed hne hname hparse hp => ?_
        exact (hapart pool (getPool_mem hpool) q hq hne name hname parsed hparse).prune
          (hp ▸ hprovider) hwant

/-- Before the first sync there are the user's own combos, none under a quota name. -/
def Unminted (combos : Combos) : Prop :=
  ∀ name combo, combos.get name = some combo → isQuotaModelName name = false

theorem Unminted.provenance (h : Unminted combos) (db : QuotaDb) : db.Provenance combos := by
  intro name combo hget hquota
  rw [h name combo hget] at hquota
  cases hquota

/-- A first sync leaves the names of the pool minted for its group alone. -/
theorem Unminted.sync (h : Unminted combos) (hpool : pool ∈ db.pools)
    (hname : name ∈ db.mintedNames pool) :
    ∃ combo, (db.syncQuotaCombos pool.id combos).get name = some combo ∧
      combo.mintedFor ≠ [] ∧ ∀ g ∈ combo.mintedFor, g = pool.groupId := by
  have hprov := (h.provenance db).upsert hpool
  have hown : ∀ name combo, ((db.byModel pool).entries.foldl (db.upsertCombo pool) combos).get name =
      some combo → isQuotaModelName name = true → ∀ g ∈ combo.mintedFor, g = pool.groupId := by
    refine foldl_upsert (P := fun m => ∀ name combo, m.get name = some combo →
      isQuotaModelName name = true → ∀ g ∈ combo.mintedFor, g = pool.groupId) ?_ ?_
    · intro m name combo hm hname hminted name' combo' hget hquota g hg
      rw [get_set] at hget
      split at hget
      · next heq =>
        cases hget
        rw [hminted] at hg
        rcases List.mem_append.1 hg with hg | hg
        · cases hold : m.get name with
          | none => simp [hold] at hg
          | some old => exact hm name old hold (heq ▸ hquota) g (by simpa [hold] using hg)
        · exact List.mem_singleton.1 hg
      · exact hm name' combo' hget hquota g hg
    · intro name combo hget hquota
      rw [h name combo hget] at hquota
      cases hquota
  obtain ⟨combo, hget⟩ := Option.ne_none_iff_exists'.1 (minted_upserted combos hname)
  have hquota : isQuotaModelName name = true := by
    obtain ⟨entry, -, hentry⟩ := List.mem_filterMap.1 hname
    obtain ⟨c, -, rfl⟩ := Option.map_eq_some_iff.1 hentry
    exact isQuotaModelName_quotaModelName _ _ _
  refine ⟨combo, ?_, (hprov name combo hget hquota).1, hown name combo hget hquota⟩
  -- The prune leaves what the pool wants.
  simp only [syncQuotaCombos, getPool_of_mem hpool]
  cases db.syncProvider pool with
  | none => exact hget
  | some provider =>
    rw [get_filter, hget]
    simp [mintedNames_desired hname]

/-- Two groups whose names differ in a capital and a dash, with a pool each of one provider. -/
def teamDb : QuotaDb where
  pools :=
    [{ id := "p1", connectionId := "c1", connectionIds := ["c1"], name := "first", groupId := "g1" },
      { id := "p2", connectionId := "c2", connectionIds := ["c2"], name := "second", groupId := "g2" }]
  ids_nodup := by decide
  groupName := fun id => if id = "g1" then some "Team-A" else if id = "g2" then some "team a" else none
  connection := fun _ => some (some "codex")
  registry := fun _ => some [some "gpt-5.5"]

end OmniRoute.QuotaDb
