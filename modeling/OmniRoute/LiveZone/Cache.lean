import OmniRoute.Lib.JsString
import OmniRoute.Lib.Json
import OmniRoute.Lib.OrdMap

/-!
# The live-zone cache of the prompt compression

A chat request repeats the items of the request before it and appends some. The cache keeps, for
a principal, a session and a variant of the configuration, what the compression made of the items
of the last request; a request whose items extend these gets the kept items back, and only the
tool outputs among its new items are compressed.

The compression is asynchronous, so a request is two events: it arrives, and is decided at once,
and later its compression comes back. Any other requests may arrive and come back in between.
Bodies are JSON objects, which can always be cloned, serialized and digested. The statistics are
a parameter; only their size counts.
-/

namespace OmniRoute.LiveZone

def maxEntries : ℕ := 100
def maxEntryBytes : ℕ := 2 * 1024 * 1024
def maxTotalBytes : ℤ := 32 * 1024 * 1024
def defaultTtlMinutes : ℚ := 5

def stablePrefixFields : List String :=
  ["system", "systemInstruction", "system_instruction", "instructions", "tools", "tool_choice"]

inductive Field
  | messages
  | input
  deriving DecidableEq

def Field.name : Field → String
  | .messages => "messages"
  | .input => "input"

variable {N : Type}

/-- The body of a request: the fields of a JSON object. -/
abbrev Body (N : Type) := OrdMap String (Json N)

structure LiveZoneOptions (N : Type) where
  principalId : Option String
  sessionId : Option String
  variant : Json N
  ttlMinutes : Option ℚ

structure CompressionResult (N : Type) where
  body : Body N
  compressed : Bool
  stats : Json N

structure LiveZoneEntry (N : Type) where
  /-- Which object this is: the request that made it. -/
  storedBy : ℕ
  rawItemDigests : List String
  rawStableFieldsDigest : String
  transformedPrefix : List (Json N)
  transformedStableFields : List (String × Json N)
  stats : Json N
  expiresAt : ℚ
  bytes : ℕ

structure LiveZoneContext (N : Type) where
  field : Field
  key : String
  rawItems : List (Json N)
  rawItemDigests : List String
  rawStableFieldsDigest : String
  ttlMs : ℚ
  now : ℤ

structure Env (N : Type) where
  digest : Json N → String
  digest_inj : ∀ v w, digest v = digest w → v = w
  /-- `compressed` and `stats` of a result that reuses a prefix, given the body of the request,
  the result and the numbers of frozen and live items. -/
  liveZoneStats : Body N → CompressionResult N → ℕ → ℕ → Bool × Json N

/-! ## Reading a request -/

/-- `body[field]`, if that is an array. -/
def itemsOf (body : Body N) (field : Field) : Option (List (Json N)) :=
  match body.get field.name with
  | some (.arr items) => some items
  | _ => none

def sequenceField (body : Body N) : Option Field :=
  if (itemsOf body .messages).isSome then some .messages
  else if (itemsOf body .input).isSome then some .input
  else none

def pickStableFields (body : Body N) : List (String × Json N) :=
  stablePrefixFields.filterMap fun field => (body.get field).map fun value => (field, value)

/-- `item[name] === value` -/
def fieldIs (item : Json N) (name value : String) : Bool :=
  match item.prop name with
  | some (.str s) => decide (s = value)
  | _ => false

def isToolOutputItem (item : Json N) : Bool :=
  fieldIs item "role" "tool" || fieldIs item "role" "function" ||
    fieldIs item "role" "tool_result" || fieldIs item "type" "function_call_output" ||
    fieldIs item "type" "local_shell_call_output" ||
    fieldIs item "type" "apply_patch_call_output" ||
    fieldIs item "type" "computer_call_output" || fieldIs item "type" "tool_result"

/-- `value[name] != null` -/
def present (value : Json N) (name : String) : Bool :=
  match value.prop name with
  | none | some .null => false
  | some _ => true

/-- A global budget needs the complete history. -/
def hasGlobalHardBudget (variant : Json N) : Bool :=
  match variant.prop "config" with
  | none => false
  | some config => present config "targetTokens" || present config "targetRatio"

def principalOf (options : LiveZoneOptions N) : String := jsTrim (options.principalId.getD "")
def sessionOf (options : LiveZoneOptions N) : String := jsTrim (options.sessionId.getD "")

variable (env : Env N)

def makeKey (options : LiveZoneOptions N) (field : Field) : Option String :=
  if principalOf options = "" ∨ sessionOf options = "" ∨ env.digest options.variant = "" then none
  else some (principalOf options ++ ":" ++ sessionOf options ++ ":" ++ field.name ++ ":" ++
    env.digest options.variant)

def stableDigest (body : Body N) : String := env.digest (.obj (pickStableFields body))

def resolveLiveZoneContext (body : Body N) (options : LiveZoneOptions N) (now : ℤ) :
    Option (LiveZoneContext N) := do
  let field ← sequenceField body
  let key ← makeKey env options field
  let rawItems ← itemsOf body field
  if stableDigest env body = "" then none
  else
    let ttlMinutes := min 60 (max 1 (options.ttlMinutes.getD defaultTtlMinutes))
    some ⟨field, key, rawItems, rawItems.map env.digest, stableDigest env body,
      ttlMinutes * 60000, now⟩

/-! ## The cache -/

/-- What a request that waits for its compression is to do with it. -/
inductive Pending (N : Type)
  /-- Return the result. -/
  | passthrough
  /-- Store the result and return it. -/
  | full (context : LiveZoneContext N)
  /-- Put the result behind the prefix of the entry. -/
  | reuse (body : Body N) (context : LiveZoneContext N) (previous : LiveZoneEntry N)

structure State (N : Type) where
  entries : OrdMap String (LiveZoneEntry N)
  totalBytes : ℤ
  /-- The requests whose compression has not come back. -/
  waiting : OrdMap ℕ (Pending N)

def State.init : State N := ⟨.empty, 0, .empty⟩

def deleteEntry (key : String) (s : State N) : State N :=
  match s.entries.get key with
  | none => s
  | some existing =>
    { s with
      totalBytes := s.totalBytes - existing.bytes
      entries := s.entries.delete key }

/-- The second loop of `prune`; each round deletes an entry. -/
def evictOldest : ℕ → State N → State N
  | 0, s => s
  | rounds + 1, s =>
    if s.entries.size > maxEntries ∨ s.totalBytes > maxTotalBytes then
      match s.entries.entries with
      | [] => s
      | oldest :: _ => evictOldest rounds (deleteEntry oldest.1 s)
    else s

def prune (now : ℤ) (s : State N) : State N :=
  let s := s.entries.entries.foldl
    (fun s p => if p.2.expiresAt ≤ (now : ℚ) then deleteEntry p.1 s else s) s
  evictOldest s.entries.size s

/-- What an entry would be stored as. -/
def storedText [JsonNumber N] (items : List (Json N)) (fields : List (String × Json N))
    (stats : Json N) : String :=
  Json.stringify (.obj [("transformedPrefix", .arr items),
    ("transformedStableFields", .obj fields), ("stats", stats)])

def store [JsonNumber N] (id : ℕ) (key : String) (rawItemDigests : List String)
    (rawStableFieldsDigest : String) (result : CompressionResult N) (field : Field) (now : ℤ)
    (ttlMs : ℚ) (s : State N) : State N :=
  match itemsOf result.body field with
  | none => s
  | some transformedPrefix =>
    let transformedStableFields := pickStableFields result.body
    let bytes := (storedText transformedPrefix transformedStableFields result.stats).utf8ByteSize +
      rawItemDigests.length * 64
    if bytes > maxEntryBytes then s
    else
      let s := deleteEntry key s
      prune now { s with
        entries := s.entries.set key ⟨id, rawItemDigests, rawStableFieldsDigest,
          transformedPrefix, transformedStableFields, result.stats, now + ttlMs, bytes⟩
        totalBytes := s.totalBytes + bytes }

def hasExactRawPrefix (rawItemDigests : List String) (entry : LiveZoneEntry N) : Bool :=
  entry.rawItemDigests.isPrefixOf rawItemDigests

/-! ## A request arrives -/

/-- What is to be done with a request, and what it leaves of the cache. -/
def applyLiveZoneCompression (body : Body N) (options : LiveZoneOptions N) (now : ℤ)
    (s : State N) : Pending N × State N :=
  if hasGlobalHardBudget options.variant then (.passthrough, s)
  else
    match resolveLiveZoneContext env body options now with
    | none => (.passthrough, s)
    | some context =>
      let s := prune context.now s
      match s.entries.get context.key with
      | none => (.full context, s)
      | some previous =>
        if previous.rawStableFieldsDigest ≠ context.rawStableFieldsDigest ∨
            hasExactRawPrefix context.rawItemDigests previous = false then (.full context, s)
        else
          (.reuse body context previous,
            { s with entries := (s.entries.delete context.key).set context.key previous })

def liveItems (context : LiveZoneContext N) (previous : LiveZoneEntry N) : List (Json N) :=
  context.rawItems.drop previous.rawItemDigests.length

/-- The body that is compressed: that of the request, or the tool outputs among its new items. -/
def compressedBody (body : Body N) : Pending N → Option (Body N)
  | .passthrough | .full _ => some body
  | .reuse body context previous =>
    let liveToolItems := (liveItems context previous).filter isToolOutputItem
    if liveToolItems = [] then none else some (body.set context.field.name (.arr liveToolItems))

/-! ## Its compression comes back -/

/-- Put the transformed tool outputs in the places of the raw ones. -/
def placeTransformed : List (Json N) → List (Json N) → List (Json N)
  | [], _ => []
  | item :: items, transformed =>
    if isToolOutputItem item then
      match transformed with
      | [] => item :: placeTransformed items []
      | new :: transformed => new :: placeTransformed items transformed
    else item :: placeTransformed items transformed

/-- The result for the new items, and the new items as they are to be returned. With no tool
output among them nothing was compressed. -/
def compressLiveToolOutputs (body : Body N) (field : Field) (liveItems : List (Json N))
    (previousStats : Json N) (result : CompressionResult N) :
    CompressionResult N × List (Json N) :=
  let liveToolItems := liveItems.filter isToolOutputItem
  if liveToolItems = [] then (⟨body, false, previousStats⟩, liveItems)
  else
    match itemsOf result.body field with
    | none => (⟨body, false, .null⟩, liveItems)
    | some transformed =>
      if transformed.length ≠ liveToolItems.length then (⟨body, false, .null⟩, liveItems)
      else (result, placeTransformed liveItems transformed)

/-- `{ ...body, ...stableFields }` -/
def restoreStableFields (body : Body N) (stableFields : List (String × Json N)) : Body N :=
  stableFields.foldl (fun body field => body.set field.1 field.2) body

def combinedResult (body : Body N) (context : LiveZoneContext N) (previous : LiveZoneEntry N)
    (result : CompressionResult N) : CompressionResult N :=
  let items := liveItems context previous
  let live := compressLiveToolOutputs body context.field items previous.stats result
  let restoredBody := restoreStableFields live.1.body previous.transformedStableFields
  let combinedBody := restoredBody.set context.field.name
    (.arr (previous.transformedPrefix ++ live.2))
  let stats := env.liveZoneStats body ⟨combinedBody, live.1.compressed, live.1.stats⟩
    previous.rawItemDigests.length items.length
  ⟨combinedBody, stats.1, stats.2⟩

/-- What a request returns and leaves when its compression comes back. -/
def resume [JsonNumber N] (id : ℕ) (pending : Pending N) (result : CompressionResult N) (now : ℤ)
    (s : State N) : CompressionResult N × State N :=
  match pending with
  | .passthrough => (result, s)
  | .full context =>
    (result, store id context.key context.rawItemDigests context.rawStableFieldsDigest result
      context.field context.now context.ttlMs s)
  | .reuse body context previous =>
    let combined := combinedResult env body context previous result
    if (s.entries.get context.key).map (·.storedBy) = some previous.storedBy then
      (combined, store id context.key context.rawItemDigests context.rawStableFieldsDigest combined
        context.field now context.ttlMs s)
    else (combined, s)

inductive Event (N : Type)
  | request (id : ℕ) (body : Body N) (options : LiveZoneOptions N) (now : ℤ)
  | compressed (id : ℕ) (result : CompressionResult N) (now : ℤ)
  /-- The compression throws, and so does the request. -/
  | failed (id : ℕ)

def step [JsonNumber N] (s : State N) : Event N → Option (State N)
  | .request id body options now =>
    let arrived := applyLiveZoneCompression env body options now s
    some { arrived.2 with waiting := arrived.2.waiting.set id arrived.1 }
  | .compressed id result now =>
    (s.waiting.get id).map fun pending =>
      (resume env id pending result now { s with waiting := s.waiting.delete id }).2
  | .failed id => (s.waiting.get id).map fun _ => { s with waiting := s.waiting.delete id }

end OmniRoute.LiveZone
