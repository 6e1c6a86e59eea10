import OmniRoute.CcrStore.Store
import OmniRoute.Lib.JsData
import OmniRoute.Lib.StateWalk

/-!
# Markers of the CCR engine

`open-sse/services/compression/engines/ccr/index.ts` and `protocolInstruction.ts`: the engine puts a
large text into the block store and leaves its beginning and a marker with the hash. It does so only
for a caller whose tools include the one that reads the store.

A message is a JSON value whose strings are code units. The store takes texts as they are encoded,
where a surrogate that is not paired counts as U+FFFD. Numbers of a configuration are finite; a
field that is not a number is none. The clock is read once.
-/

namespace OmniRoute.CcrMarkers

open JsData

variable {N : Type}

structure Env (N : Type) where
  store : CcrStore.Env
  /-- How often a principal has read a block, by the key of the block. -/
  retrievalCount : String → ℕ
  /-- `COMPRESSION_CCR_RETRIEVAL_RAMP_FACTOR`, or its default. -/
  defaultRampFactor : ℚ
  num : JsNumbers N
  /-- `400 <= n && n <= 599` -/
  isErrorStatus : N → Bool
  /-- `JSON.parse` -/
  parse : CodeUnits → Option (JsData N)
  now : ℤ

/-- The fields of a step configuration. -/
structure StepConfig where
  enabled : Option Bool := none
  minChars : Option ℚ := none
  retrievalRampFactor : Option ℚ := none

/-! ## Texts and blocks -/

def encodedChar : JsValue.CodePoint → Char
  | .pair high low => Char.ofNat (0x10000 + (high.toNat - 0xD800) * 0x400 + (low.toNat - 0xDC00))
  | .unit u =>
    if JsValue.isHighSurrogate u ∨ JsValue.isLowSurrogate u then Char.ofNat 0xFFFD
    else Char.ofNat u.toNat

/-- A text as it is hashed and measured. -/
def encoded (text : CodeUnits) : String := String.ofList ((JsValue.codePoints text).map encodedChar)

/-- The hash of a text that the store has taken, and the store. -/
def tryStoreBlock (env : Env N) (principalId : Option String) (text : CodeUnits)
    (s : CcrStore.State) : Option String × CcrStore.State :=
  match CcrStore.tryStoreBlock env.store (encoded text) principalId none env.now s with
  | (.stored hash _, s) => (some hash, s)
  | (.rejected _ _, s) => (none, s)

def buildCcrMarker (hash : String) (charCount : ℕ) : CodeUnits :=
  CodeUnits.ofString ("[CCR retrieve hash=" ++ hash ++ " chars=" ++ toString charCount ++ "]")

/-! ## Callers and messages -/

def ccrRetrieveToolName : String := "omniroute_ccr_retrieve"

def callerSupportsCcrRetrieve (tools : Option (JsData N)) : Bool :=
  match elements tools with
  | none => false
  | some tools => tools.any fun tool =>
    isText (field tool "name") ccrRetrieveToolName ||
      isText ((field tool "function").bind fun f => field f "name") ccrRetrieveToolName

def isToolResult (part : JsData N) : Bool := isText (field part "type") "tool_result"

/-- A user message that is made of tool results only. -/
def isToolResultMessage (msg : JsData N) : Bool :=
  isText (field msg "role") "user" &&
    match elements (field msg "content") with
    | some parts => !parts.isEmpty && parts.all isToolResult
    | none => false

/-- The output of a tool, in a message of its own or in one of the user. -/
def isToolOutput (msg : JsData N) : Bool :=
  isText (field msg "role") "tool" || isToolResultMessage msg

/-! ## The engine -/

def defaultMinChars : ℚ := 600
def retrievalThreshold : ℕ := 3
def markerPreambleChars : ℕ := 200

/-- `Math.round(x)` -/
def round (x : ℚ) : ℤ := ⌊x + 1 / 2⌋

/-- The size from which a block is replaced; none is infinity. -/
def effectiveMinChars (env : Env N) (baseMinChars : ℚ) (hash : String)
    (principalId : Option String) (rampFactor : ℚ) : Option ℚ :=
  let count := env.retrievalCount (CcrStore.buildStoreKey hash (CcrStore.ownerOf principalId))
  if count ≥ retrievalThreshold then none
  else if count = 0 ∨ rampFactor ≤ 1 then some baseMinChars
  else some (round (baseMinChars * (1 + (rampFactor - 1) * count)))

def buildCcrReplacementText (text marker : CodeUnits) : CodeUnits :=
  (text.take markerPreambleChars).rdropWhile CodeUnits.isSpace ++
    (CodeUnits.ofString "… " ++ marker)

/-- The text for a large block, if it is replaced. -/
def maybeCcrReplace (env : Env N) (minChars : ℚ) (principalId : Option String) (rampFactor : ℚ)
    (text : CodeUnits) (s : CcrStore.State) : Option CodeUnits × CcrStore.State :=
  if (text.length : ℚ) < minChars then (none, s)
  else
    let hash := env.store.hashContent (encoded text)
    match effectiveMinChars env minChars hash principalId rampFactor with
    | none => (none, s)
    | some effective =>
      if (text.length : ℚ) < effective then (none, s)
      else
        let replacement := buildCcrReplacementText text (buildCcrMarker hash text.length)
        if replacement.length ≥ text.length then (none, s)
        else
          let (stored, s) := tryStoreBlock env principalId text s
          (stored.map fun _ => replacement, s)

/-- The part of a message, if its text is replaced. -/
def processPart (env : Env N) (minChars : ℚ) (principalId : Option String) (rampFactor : ℚ)
    (part : JsData N) (s : CcrStore.State) : Option (JsData N) × CcrStore.State :=
  match isText (field part "type") "text", text? (field part "text") with
  | true, some text =>
    let (replacement, s) := maybeCcrReplace env minChars principalId rampFactor text s
    (replacement.map fun text => withField part "text" (.str text), s)
  | _, _ => (none, s)

/-- The elements of a list with those that were replaced. -/
def merged {α : Type} (old : List α) (new : List (Option α)) : List α :=
  List.zipWith (fun a b => b.getD a) old new

/-- A message, if anything in it is replaced. -/
def processMessage (env : Env N) (minChars : ℚ) (principalId : Option String) (rampFactor : ℚ)
    (msg : JsData N) (s : CcrStore.State) : Option (JsData N) × CcrStore.State :=
  if isText (field msg "role") "system" then (none, s)
  else if isToolOutput msg then (none, s)
  else
    match field msg "content" with
    | some (.str text) =>
      let (replacement, s) := maybeCcrReplace env minChars principalId rampFactor text s
      (replacement.map fun text => withField msg "content" (.str text), s)
    | some (.arr parts) =>
      let (newParts, s) :=
        StateWalk.walk (processPart env minChars principalId rampFactor) parts s
      if newParts.any Option.isSome then
        (some (withField msg "content" (.arr (merged parts newParts))), s)
      else (none, s)
    | _ => (none, s)

def processMessages (env : Env N) (minChars : ℚ) (principalId : Option String) (rampFactor : ℚ)
    (messages : List (JsData N)) (s : CcrStore.State) : List (Option (JsData N)) × CcrStore.State :=
  StateWalk.walk (processMessage env minChars principalId rampFactor) messages s

/-- The messages of the new body, before the instruction that explains markers is put in front of
them; none is a body that stays as it is, also because reading it throws. -/
def ccrApply (env : Env N) (stepConfig : StepConfig) (principalId : Option String)
    (tools : Option (JsData N)) (messages : List (JsData N)) (s : CcrStore.State) :
    Option (List (JsData N)) :=
  if stepConfig.enabled = some false then none
  else if callerSupportsCcrRetrieve tools = false then none
  else if messages.any isNull then none
  else
    let processed := (processMessages env (stepConfig.minChars.getD defaultMinChars) principalId
      (stepConfig.retrievalRampFactor.getD env.defaultRampFactor) messages s).1
    if processed.any Option.isSome then some (merged messages processed) else none

end OmniRoute.CcrMarkers
