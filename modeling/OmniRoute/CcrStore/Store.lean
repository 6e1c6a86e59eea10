import OmniRoute.Lib.OrdMap

/-!
# The block store of the CCR engine

Compressed-away blocks of text are kept under a hash of their content, for the principal that
stored them. The hot tier is a map in memory in least-recently-used order, whose key is one
string made of the principal and the hash; it is bounded by a number of entries and by bytes, in
total and for each principal, which two counters keep track of. The durable tier is a table with
a row for each principal and hash. Writes to it are deferred, in one queue; a retrieve that
misses the map reads the table and puts the block back.

The hash is any function whose values have no space. A durable write or read that throws does
nothing. Retrieval counts, lifecycle counters and descriptive metadata are left out.
-/

namespace OmniRoute.CcrStore

def maxCcrEntries : ℕ := 5000
def maxCcrBlockBytes : ℕ := 2 * 1024 * 1024
def maxCcrPrincipalBytes : ℕ := 16 * 1024 * 1024
def maxCcrGlobalBytes : ℕ := 64 * 1024 * 1024
def maxDurableBlockBytes : ℕ := 512 * 1024
def defaultCcrTtlSeconds : ℤ := 24 * 60 * 60
def maxCcrTtlSeconds : ℤ := 7 * 24 * 60 * 60
def maxPendingDurableWrites : ℕ := 1000
def pruneEveryNWrites : ℕ := 200

structure CcrEntry where
  hash : String
  principalId : String
  content : String
  bytes : ℕ
  createdAt : ℤ
  lastAccessedAt : ℤ
  expiresAt : ℤ
  deriving DecidableEq

/-- A deferred write of the durable tier. -/
inductive DurableWrite
  | persist (row : CcrEntry)
  | delete (principalId hash : String)

structure Env where
  /-- The first hex digits of a digest. -/
  hashContent : String → String
  hash_no_space : ∀ text, ' ' ∉ (hashContent text).toList
  durableTierEnabled : Bool

structure State where
  ccrStore : OrdMap String CcrEntry
  principalBytesMap : OrdMap String ℕ
  ccrTotalBytes : ℕ
  /-- The queue of deferred writes, oldest first. -/
  pendingWrites : List DurableWrite
  /-- The durable table. -/
  ccrBlocks : OrdMap (String × String) CcrEntry
  writesSincePrune : ℕ

def State.init : State := ⟨.empty, .empty, 0, [], .empty, 0⟩

def anon : String := "__anon__"

/-- The principal a block belongs to when none is given is `anon`. -/
def ownerOf (principalId : Option String) : String := principalId.getD anon

def buildStoreKey (hash owner : String) : String := owner ++ " " ++ hash

variable (env : Env)

/-! ## The durable tier -/

def deferDurable (write : DurableWrite) (droppable : Bool) (s : State) : State :=
  if droppable = true ∧ s.pendingWrites.length ≥ maxPendingDurableWrites then s
  else { s with pendingWrites := s.pendingWrites ++ [write] }

def persistEntry (entry : CcrEntry) (s : State) : State :=
  if env.durableTierEnabled = false ∨ entry.bytes > maxDurableBlockBytes then s
  else deferDurable (.persist entry) true s

def forgetEntry (hash owner : String) (s : State) : State :=
  if env.durableTierEnabled = false then s else deferDurable (.delete owner hash) false s

def pruneExpiredCcrBlocks (now : ℤ) (s : State) : State :=
  { s with ccrBlocks := s.ccrBlocks.filter fun p => decide (now < p.2.expiresAt) }

def persistCcrBlock (row : CcrEntry) (now : ℤ) (s : State) : State :=
  let s := { s with ccrBlocks := s.ccrBlocks.set (row.principalId, row.hash) row }
  if s.writesSincePrune + 1 ≥ pruneEveryNWrites then
    pruneExpiredCcrBlocks now { s with writesSincePrune := 0 }
  else { s with writesSincePrune := s.writesSincePrune + 1 }

def deleteCcrBlockRow (owner hash : String) (s : State) : State :=
  { s with ccrBlocks := s.ccrBlocks.delete (owner, hash) }

def touchCcrBlock (owner hash : String) (now : ℤ) (s : State) : State :=
  { s with ccrBlocks := s.ccrBlocks.modify (owner, hash) fun row => { row with lastAccessedAt := now } }

/-- The unexpired row of a block; an expired one is deleted. -/
def loadCcrBlock (owner hash : String) (now : ℤ) (s : State) : Option CcrEntry × State :=
  match s.ccrBlocks.get (owner, hash) with
  | none => (none, s)
  | some row =>
    if row.expiresAt ≤ now then (none, deleteCcrBlockRow owner hash s)
    else (some { row with principalId := owner, hash := hash }, s)

/-- The oldest deferred write runs, or throws. -/
def drainWrite (succeeds : Bool) (now : ℤ) (s : State) : State :=
  match s.pendingWrites with
  | [] => s
  | write :: writes =>
    let s := { s with pendingWrites := writes }
    if succeeds = false then s
    else
      match write with
      | .persist row => persistCcrBlock row now s
      | .delete owner hash => deleteCcrBlockRow owner hash s

/-! ## The map and its counters -/

def principalBytes (owner : String) (s : State) : ℕ := (s.principalBytesMap.get owner).getD 0

def subtractBytes (owner : String) (bytes : ℕ) (m : OrdMap String ℕ) : OrdMap String ℕ :=
  if (m.get owner).getD 0 - bytes = 0 then m.delete owner
  else m.set owner ((m.get owner).getD 0 - bytes)

/-- Take an entry out of the map and off the counters. -/
def dropEntry (key : String) (entry : CcrEntry) (s : State) : State :=
  { s with
    ccrStore := s.ccrStore.delete key
    ccrTotalBytes := s.ccrTotalBytes - entry.bytes
    principalBytesMap := subtractBytes entry.principalId entry.bytes s.principalBytesMap }

/-- Only expiry reaches the durable tier. -/
def removeEntry (key : String) (expired : Bool) (s : State) : State :=
  match s.ccrStore.get key with
  | none => s
  | some entry =>
    if expired then forgetEntry env entry.hash entry.principalId (dropEntry key entry s)
    else dropEntry key entry s

def purgeExpired (now : ℤ) (s : State) : State :=
  s.ccrStore.entries.foldl
    (fun s p => if p.2.expiresAt ≤ now then removeEntry env p.1 true s else s) s

def getActiveEntry (key : String) (now : ℤ) (s : State) : Option CcrEntry × State :=
  match s.ccrStore.get key with
  | none => (none, s)
  | some entry =>
    if entry.expiresAt ≤ now then (none, removeEntry env key true s) else (some entry, s)

/-- Remove the least recently used entry that matches, if there is one. -/
def evictOldestMatching (p : CcrEntry → Bool) (s : State) : Option State :=
  (s.ccrStore.entries.find? fun q => p q.2).map fun q => removeEntry env q.1 false s

def ownedBy (owner : String) (entry : CcrEntry) : Bool := decide (entry.principalId = owner)

/-- The loop of `enforcePrincipalBudget`; each round removes an entry. -/
def evictForPrincipal (owner : String) (bytes : ℕ) : ℕ → State → State
  | 0, s => s
  | rounds + 1, s =>
    if principalBytes owner s + bytes > maxCcrPrincipalBytes then
      match evictOldestMatching env (ownedBy owner) s with
      | none => s
      | some s => evictForPrincipal owner bytes rounds s
    else s

def enforcePrincipalBudget (owner : String) (bytes : ℕ) (s : State) : Bool × State :=
  let s := evictForPrincipal env owner bytes s.ccrStore.size s
  (decide (principalBytes owner s + bytes ≤ maxCcrPrincipalBytes), s)

def overBudget (bytes : ℕ) (s : State) : Bool :=
  decide (s.ccrStore.size ≥ maxCcrEntries ∨ s.ccrTotalBytes + bytes > maxCcrGlobalBytes)

/-- The loop of `enforceGlobalBudget`: the owner's entries go first, then anyone's. -/
def evictForAll (owner : String) (bytes : ℕ) : ℕ → State → State
  | 0, s => s
  | rounds + 1, s =>
    if overBudget bytes s then
      match (evictOldestMatching env (ownedBy owner) s).orElse
        fun _ => evictOldestMatching env (fun _ => true) s with
      | none => s
      | some s => evictForAll owner bytes rounds s
    else s

def enforceGlobalBudget (owner : String) (bytes : ℕ) (s : State) : Bool × State :=
  let s := evictForAll env owner bytes s.ccrStore.size s
  (decide (s.ccrTotalBytes + bytes ≤ maxCcrGlobalBytes), s)

/-- Put an entry in the map and on the counters. -/
def admitEntry (key : String) (entry : CcrEntry) (s : State) : State :=
  { s with
    ccrStore := s.ccrStore.set key entry
    ccrTotalBytes := s.ccrTotalBytes + entry.bytes
    principalBytesMap := s.principalBytesMap.set entry.principalId
      (principalBytes entry.principalId s + entry.bytes) }

/-- Make an entry the most recently used one. -/
def refreshEntry (key : String) (entry : CcrEntry) (s : State) : State :=
  { s with ccrStore := (s.ccrStore.delete key).set key entry }

/-- The loaded row goes back into the map if both budgets allow it. -/
def readmitEntry (hash : String) (entry : CcrEntry) (s : State) : State :=
  let fits := enforcePrincipalBudget env entry.principalId entry.bytes s
  if fits.1 then
    let fits := enforceGlobalBudget env entry.principalId entry.bytes fits.2
    if fits.1 then admitEntry (buildStoreKey hash entry.principalId) entry fits.2 else fits.2
  else fits.2

/-- `diskReads` is false when reading the row throws. -/
def rehydrateEntry (hash owner : String) (now : ℤ) (diskReads : Bool) (s : State) :
    Option CcrEntry × State :=
  if env.durableTierEnabled = false ∨ diskReads = false then (none, s)
  else
    match loadCcrBlock owner hash now s with
    | (none, s) => (none, s)
    | (some row, s) =>
      let entry := { row with lastAccessedAt := now }
      (some entry, touchCcrBlock owner hash now (readmitEntry env hash entry s))

/-! ## The operations -/

inductive StoreRejection
  | block_too_large
  | principal_budget_exceeded
  | global_budget_exceeded
  deriving DecidableEq

inductive StoreCcrBlockResult
  | stored (hash : String) (entry : CcrEntry)
  | rejected (hash : String) (reason : StoreRejection)

/-- `none` is a value that is missing or not finite. -/
def normalizeTtlSeconds (value : Option ℚ) : ℤ :=
  match value with
  | none => defaultCcrTtlSeconds
  | some value => max 60 (min maxCcrTtlSeconds ⌊value⌋)

/-- A store of a block that the map does not hold. -/
def storeFresh (text owner : String) (ttlSeconds : Option ℚ) (now : ℤ) (s : State) :
    StoreCcrBlockResult × State :=
  let hash := env.hashContent text
  if text.utf8ByteSize > maxCcrBlockBytes then (.rejected hash .block_too_large, s)
  else
    let principalFits := enforcePrincipalBudget env owner text.utf8ByteSize s
    if principalFits.1 = false then (.rejected hash .principal_budget_exceeded, principalFits.2)
    else
      let globalFits := enforceGlobalBudget env owner text.utf8ByteSize principalFits.2
      if globalFits.1 = false then (.rejected hash .global_budget_exceeded, globalFits.2)
      else
        let entry : CcrEntry :=
          ⟨hash, owner, text, text.utf8ByteSize, now, now,
            now + normalizeTtlSeconds ttlSeconds * 1000⟩
        (.stored hash entry,
          persistEntry env entry (admitEntry (buildStoreKey hash owner) entry globalFits.2))

def tryStoreBlock (text : String) (principalId : Option String) (ttlSeconds : Option ℚ) (now : ℤ)
    (s : State) : StoreCcrBlockResult × State :=
  let hash := env.hashContent text
  let key := buildStoreKey hash (ownerOf principalId)
  let s := purgeExpired env now s
  match s.ccrStore.get key with
  | some existing =>
    let existing := { existing with
      lastAccessedAt := now
      expiresAt := now + normalizeTtlSeconds ttlSeconds * 1000 }
    (.stored hash existing, refreshEntry key existing s)
  | none => storeFresh env text (ownerOf principalId) ttlSeconds now s

def retrieveBlock (hash : String) (principalId : Option String) (now : ℤ) (diskReads : Bool)
    (s : State) : Option String × State :=
  let key := buildStoreKey hash (ownerOf principalId)
  match getActiveEntry env key now s with
  | (none, s) =>
    let restored := rehydrateEntry env hash (ownerOf principalId) now diskReads s
    (restored.1.map (·.content), restored.2)
  | (some entry, s) =>
    (some entry.content, refreshEntry key { entry with lastAccessedAt := now } s)

def inspectCcrBlock (hash : String) (principalId : Option String) (now : ℤ) (s : State) :
    Option CcrEntry × State :=
  getActiveEntry env (buildStoreKey hash (ownerOf principalId)) now s

/-- The owner's entries, most recently used first. -/
def listCcrBlocks (principalId : Option String) (now : ℤ) (s : State) : List CcrEntry × State :=
  let s := purgeExpired env now s
  ((s.ccrStore.values.filter (ownedBy (ownerOf principalId))).reverse, s)

def deleteCcrBlock (hash : String) (principalId : Option String) (s : State) : State :=
  forgetEntry env hash (ownerOf principalId)
    (removeEntry env (buildStoreKey hash (ownerOf principalId)) false s)

inductive Event
  | store (text : String) (principalId : Option String) (ttlSeconds : Option ℚ) (now : ℤ)
  | retrieve (hash : String) (principalId : Option String) (now : ℤ) (diskReads : Bool)
  | inspect (hash : String) (principalId : Option String) (now : ℤ)
  | list (principalId : Option String) (now : ℤ)
  | delete (hash : String) (principalId : Option String)
  | drain (succeeds : Bool) (now : ℤ)

def step (s : State) : Event → State
  | .store text principalId ttlSeconds now => (tryStoreBlock env text principalId ttlSeconds now s).2
  | .retrieve hash principalId now diskReads =>
    (retrieveBlock env hash principalId now diskReads s).2
  | .inspect hash principalId now => (inspectCcrBlock env hash principalId now s).2
  | .list principalId now => (listCcrBlocks env principalId now s).2
  | .delete hash principalId => deleteCcrBlock env hash principalId s
  | .drain succeeds now => drainWrite succeeds now s

end OmniRoute.CcrStore
