import OmniRoute.Lib.OrdMap
import OmniRoute.QuotaGroups.ModelNaming

/-!
# Quota combos and the scope of a quota key

`src/lib/quota/quotaCombos.ts` mints one hidden combo for every model a quota pool can serve and
prunes the ones it no longer can; `src/lib/quota/quotaKey.ts` resolves which slugs an API key may
see, and the two catalog helpers list the combos that carry one of them.

The tables read on the way (pools, groups, provider connections, the provider registry) are one
record, `QuotaDb`. A combo also carries `mintedFor`, the groups whose pools have upserted it: no
function reads it, it is there to say what isolation means. A call runs to its end before the
next, and database failures, which the source logs and skips, do not happen.
-/

namespace OmniRoute

structure QuotaPool where
  id : String
  connectionId : String
  connectionIds : List String
  name : String
  groupId : String

/-- The tables the quota helpers read. A connection is there or not, and its provider is a
string or not; a registered model has a string id or not. -/
structure QuotaDb where
  pools : List QuotaPool
  ids_nodup : (pools.map (·.id)).Nodup
  groupName : String → Option String
  connection : String → Option (Option String)
  registry : String → Option (List (Option String))

structure ComboModelStep where
  model : String
  providerId : String
  connectionId : String
  weight : ℕ

/-- A row of the combos table, under its name. -/
structure Combo where
  models : List ComboModelStep
  strategy : String
  isHidden : Bool
  /-- The groups whose pools have minted the combo. -/
  mintedFor : List String

/-- The combos table: names are unique. -/
abbrev Combos := OrdMap String Combo

def QUOTA_SHARE_STRATEGY : String := "quota-share"

namespace QuotaDb

def getPool (db : QuotaDb) (id : String) : Option QuotaPool := db.pools.find? (·.id = id)

def getPoolsByGroup (db : QuotaDb) (groupId : String) : List QuotaPool :=
  db.pools.filter (·.groupId = groupId)

end QuotaDb

/-- The member connections of a pool; a row from before there were several has one. -/
def QuotaPool.members (pool : QuotaPool) : List String :=
  if pool.connectionIds.length > 0 then pool.connectionIds else [pool.connectionId]

namespace QuotaDb

/-- The provider of a connection, when it is there and names one. -/
def connectionProvider (db : QuotaDb) (connId : String) : Option String :=
  match db.connection connId with
  | some (some provider) => if provider.length = 0 then none else some provider
  | _ => none

def getProviderModelIds (db : QuotaDb) (provider : String) : List String :=
  match db.registry provider with
  | none => []
  | some models => models.filterMap fun id => id.bind fun id => if id.length > 0 then some id else none

/-! ## Minting -/

/-- The group name that `resolvePoolForSync` finds for a pool: the pool's own name stands in
for a group that has no record. -/
def poolGroupName (db : QuotaDb) (pool : QuotaPool) : String :=
  (db.groupName pool.groupId).getD pool.name

def poolGroupSlug (db : QuotaDb) (pool : QuotaPool) : String :=
  quotaGroupSlug (db.poolGroupName pool)

/-- One entry of the upsert work of a sync. -/
structure UpsertWork where
  connId : String
  provider : String
  modelIds : List String

/-- The members of a pool with a provider that has models. -/
def upsertWork (db : QuotaDb) (pool : QuotaPool) : List UpsertWork :=
  pool.members.filterMap fun connId =>
    (db.connectionProvider connId).bind fun provider =>
      let modelIds := db.getProviderModelIds provider
      if modelIds.length = 0 then none else some { connId, provider, modelIds }

def desiredNames (db : QuotaDb) (pool : QuotaPool) : List String :=
  (db.upsertWork pool).flatMap fun work =>
    work.modelIds.map (quotaModelName (db.poolGroupName pool) work.provider)

/-- The steps of one model: its connections, with their providers, in the order of the pool. -/
abbrev ByModel := OrdMap String (List (String × String))

def byModel (db : QuotaDb) (pool : QuotaPool) : ByModel :=
  (db.upsertWork pool).foldl (fun m work =>
    work.modelIds.foldl (fun m modelId =>
      m.set modelId ((m.get modelId).getD [] ++ [(work.connId, work.provider)])) m) OrdMap.empty

/-- Create the combo of one model, or update it. -/
def upsertCombo (db : QuotaDb) (pool : QuotaPool) (combos : Combos)
    (entry : String × List (String × String)) : Combos :=
  let (modelId, conns) := entry
  match conns with
  | [] => combos
  | (_, provider) :: _ =>
      let comboName := quotaModelName (db.poolGroupName pool) provider modelId
      let steps := conns.map fun (connId, provider) =>
        { model := provider ++ "/" ++ modelId, providerId := provider, connectionId := connId,
          weight := 100 }
      let minted := ((combos.get comboName).map (·.mintedFor)).getD []
      combos.set comboName
        { models := steps
          strategy := QUOTA_SHARE_STRATEGY
          isHidden := true
          mintedFor := minted ++ [pool.groupId] }

/-- The test by which both cleanups pick the combos of one group and provider. -/
def ownedBy (groupSlug provider name : String) : Bool :=
  match parseQuotaModelName name with
  | none => false
  | some parsed => parsed.groupSlug = groupSlug && parsed.provider = provider

/-- The provider `removeQuotaCombosForPool` scopes by: that of the first usable member. -/
def removeProvider (db : QuotaDb) (pool : QuotaPool) : Option String :=
  pool.members.findSome? db.connectionProvider

def removeQuotaCombosForPool (db : QuotaDb) (poolId : String) (combos : Combos) : Combos :=
  match db.getPool poolId with
  | none => combos
  | some pool =>
      match db.removeProvider pool with
      | none => combos
      | some poolProvider =>
          combos.filter fun (name, _) => !ownedBy (db.poolGroupSlug pool) poolProvider name

/-- The provider `syncQuotaCombos` prunes by: that of the first member with models. -/
def syncProvider (db : QuotaDb) (pool : QuotaPool) : Option String :=
  (db.upsertWork pool).head?.map (·.provider)

def syncQuotaCombos (db : QuotaDb) (poolId : String) (combos : Combos) : Combos :=
  match db.getPool poolId with
  | none => db.removeQuotaCombosForPool poolId combos
  | some pool =>
      let upserted := (db.byModel pool).entries.foldl (db.upsertCombo pool) combos
      match db.syncProvider pool with
      | none => upserted
      | some poolProvider =>
          upserted.filter fun (name, _) =>
            !(ownedBy (db.poolGroupSlug pool) poolProvider name &&
              !(db.desiredNames pool).contains name)

/-! ## The scope of a key -/

structure QuotaKeyScope where
  connectionIds : List String
  providers : List String
  poolSlugs : List String

/-- The groups of the pools a key is allowed, each once. -/
def allowedGroups (db : QuotaDb) (allowedQuotas : List String) : List String :=
  ((allowedQuotas.filterMap db.getPool).map (·.groupId)).eraseDups

/-- The usable connections of a group, over all its pools, with their providers. -/
def groupConnections (db : QuotaDb) (groupId : String) : List (String × String) :=
  (db.getPoolsByGroup groupId).flatMap fun pool =>
    pool.members.filterMap fun connId => (db.connectionProvider connId).map fun p => (connId, p)

/-- The slug a group is exposed under; its id stands in for a missing name. -/
def scopeSlug (db : QuotaDb) (groupId : String) : String :=
  quotaGroupSlug ((db.groupName groupId).getD groupId)

def resolveQuotaKeyScope (db : QuotaDb) (allowedQuotas : List String) : QuotaKeyScope :=
  if allowedQuotas.length = 0 then { connectionIds := [], providers := [], poolSlugs := [] }
  else
    let groups := db.allowedGroups allowedQuotas
    let usable := groups.flatMap db.groupConnections
    { connectionIds := (usable.map Prod.fst).eraseDups
      providers := (usable.map Prod.snd).eraseDups
      poolSlugs :=
        ((groups.filter fun groupId => (db.groupConnections groupId).length > 0).map
          db.scopeSlug).eraseDups }

/-! ## The catalog of a key -/

/-- A name carries one of the slugs. -/
def inQuotaPools (poolSlugs : List String) (name : String) : Bool :=
  isQuotaModelName name &&
    match parseQuotaModelName name with
    | none => false
    | some parsed => poolSlugs.contains parsed.groupSlug

def filterModelsToQuotaPools {T : Type} (id : T → String) (models : List T)
    (poolSlugs : List String) : List T :=
  if poolSlugs.length = 0 then [] else models.filter fun m => inQuotaPools poolSlugs (id m)

/-- An entry of `/v1/models`; `metadata` is what the catalog's own builder adds. -/
structure CatalogEntry (Metadata : Type) where
  id : String
  object : String
  created : ℕ
  owned_by : String
  permission : List String := []
  root : String
  parent : Option String := none
  metadata : Metadata

def buildQuotaExclusiveModels {Metadata : Type} (db : QuotaDb) (allowedQuotas : List String)
    (combos : Combos) (timestamp : ℕ) (metadataFor : Combo → Metadata) :
    List (CatalogEntry Metadata) :=
  let scope := db.resolveQuotaKeyScope allowedQuotas
  if scope.poolSlugs.length = 0 then []
  else
    combos.entries.filterMap fun (name, combo) =>
      if inQuotaPools scope.poolSlugs name then
        some
          { id := name
            object := "model"
            created := timestamp
            owned_by := "combo"
            root := name
            metadata := metadataFor combo }
      else none

end QuotaDb

end OmniRoute
