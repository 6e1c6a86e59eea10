import OmniRoute.CcrMarkers.Fuzzy

/-!
# The ionizer

`open-sse/services/compression/engines/ionizer/sample.ts`: a message that is a long JSON array of
objects goes into the block store and becomes a sample of its rows with a marker. The rows that bring
a new key, those that tell of an error, and the first and last ones are always in the sample.
-/

namespace OmniRoute.CcrMarkers

open JsData

variable {N : Type}

structure IonizerConfig where
  enabled : Option Bool := none
  threshold : Option ℚ := none
  targetRows : Option ℚ := none

def maxIonizerRows : ℕ := 100000

/-! ## Random numbers -/

/-- One round of `mulberry32`: the number as a share of 2^32, and the next state. -/
def mulberry32 (a : UInt32) : UInt32 × UInt32 :=
  let a := a + 0x6d2b79f5
  let t := (a ^^^ (a >>> 15)) * (1 ||| a)
  let t := (t + (t ^^^ (t >>> 7)) * (61 ||| t)) ^^^ t
  (t ^^^ (t >>> 14), a)

def swap (i j : ℕ) (idx : List ℕ) : List ℕ := (idx.set i (idx.getD j 0)).set j (idx.getD i 0)

/-- The loop that moves a random index to each of the first places. -/
def shuffled (n : ℕ) : ℕ → ℕ → UInt32 → List ℕ → List ℕ
  | 0, _, _, idx => idx
  | rounds + 1, i, state, idx =>
    let (r, state) := mulberry32 state
    shuffled n rounds (i + 1) state (swap i (i + r.toNat * (n - i) / 2 ^ 32) idx)

def seededSample (pool : List ℕ) (k : ℚ) (seed : UInt32) : List ℕ :=
  if k ≥ pool.length then pool
  else
    let idx := shuffled pool.length ⌈k⌉₊ 0 seed (List.range pool.length)
    ((idx.take ⌊k⌋₊).mergeSort).map fun i => pool.getD i 0

/-! ## Rows -/

/-- The keys of a row. -/
def rowKeys : JsData N → List CodeUnits
  | .obj fields => fields.map Prod.fst
  | _ => []

def asciiLower (u : UInt16) : UInt16 := if 65 ≤ u ∧ u ≤ 90 then u + 32 else u

def errorWords : List CodeUnits :=
  ["error", "fail", "exception", "stderr", "denied"].map CodeUnits.ofString

/-- `/error|fail|exception|stderr|denied/i` -/
def isErrorKey (key : CodeUnits) : Bool := errorWords.any fun word => word <:+: key.map asciiLower

def isErrorRow (env : Env N) (row : JsData N) : Bool :=
  (match row with
    | .obj fields => fields.any fun f => isErrorKey f.1 && isTruthy env.num f.2
    | _ => false) ||
  ["status", "statusCode", "code"].any fun k =>
    match field row k with
    | some (.num n) => env.isErrorStatus n
    | _ => false

/-- The row has a key that no earlier row has. -/
def isNovel (rows : List (JsData N)) (row : JsData N) (i : ℕ) : Bool :=
  (rowKeys row).any fun key => !(rows.take i).any fun earlier => (rowKeys earlier).contains key

/-- The rows that are kept whatever the sample is. -/
def alwaysKept (env : Env N) (rows : List (JsData N)) (firstK lastK : ℕ) : List ℕ :=
  (rows.zipIdx.filter fun (row, i) =>
    isNovel rows row i || isErrorRow env row || decide (i < firstK) ||
      decide (rows.length - lastK ≤ i)).map Prod.snd

/-- The positions of the rows that are kept. -/
def keptRows (env : Env N) (rows : List (JsData N)) (targetRows : ℚ) (firstK lastK : ℕ)
    (seed : UInt32) : List ℕ :=
  let keep := alwaysKept env rows firstK lastK
  if (keep.length : ℚ) < targetRows then
    let middle := (List.range rows.length).filter fun i => i ∉ keep
    let sample := seededSample middle (targetRows - keep.length) seed
    (List.range rows.length).filter fun i => i ∈ keep ∨ i ∈ sample
  else keep

def ionize (env : Env N) (rows : List (JsData N)) (targetRows : ℚ) (firstK lastK : ℕ)
    (seed : UInt32) : List (JsData N) :=
  if (rows.length : ℚ) ≤ targetRows then rows
  else (keptRows env rows targetRows firstK lastK seed).filterMap fun i => rows[i]?

/-! ## The pass -/

def isPlainObject : JsData N → Bool
  | .obj _ => true
  | _ => false

/-- The rows of a text and its sample, if there is something to leave out. -/
def sampled (env : Env N) (threshold targetRows : ℚ) (serialized : CodeUnits) :
    Option (List (JsData N) × List (JsData N)) :=
  match env.parse serialized with
  | some (.arr rows) =>
    if (rows.length : ℚ) ≤ threshold then none
    else if rows.length > maxIonizerRows then none
    else if rows.all isPlainObject = false then none
    else
      let kept := ionize env rows targetRows 3 3 (fnv1a serialized)
      if kept.length ≥ rows.length then none else some (rows, kept)
  | _ => none

def ionizerMarker (kept total : ℕ) (hash : String) (chars : ℕ) : CodeUnits :=
  CodeUnits.ofString ("[ionizer: kept " ++ toString kept ++ "/" ++ toString total ++
    " rows; full → CCR retrieve hash=" ++ hash ++ " chars=" ++ toString chars ++ "]")

/-- The sample with its marker. -/
def ionizedText (env : Env N) (rows kept : List (JsData N)) (hash : String)
    (serialized : CodeUnits) : CodeUnits :=
  (JsValue.stringify env.num.toJsNumerals (toJs (.arr kept))).getD [] ++
    (10 :: ionizerMarker kept.length rows.length hash serialized.length)

/-- The text that replaces a message, if it is replaced. -/
def ionizeText (env : Env N) (threshold targetRows : ℚ) (principalId : Option String)
    (serialized : CodeUnits) (s : CcrStore.State) : Option CodeUnits × CcrStore.State :=
  match sampled env threshold targetRows serialized with
  | none => (none, s)
  | some (rows, kept) =>
    let (stored, s) := tryStoreBlock env principalId serialized s
    match stored with
    | none => (none, s)
    | some hash =>
      let newContent := ionizedText env rows kept hash serialized
      if newContent.length ≥ serialized.length then (none, s) else (some newContent, s)

def ionizeMessage (env : Env N) (threshold targetRows : ℚ) (principalId : Option String)
    (msg : JsData N) (s : CcrStore.State) : Option (JsData N) × CcrStore.State :=
  if isText (field msg "role") "system" then (none, s)
  else
    match text? (field msg "content") with
    | none => (none, s)
    | some serialized =>
      let (newContent, s) := ionizeText env threshold targetRows principalId serialized s
      (newContent.map fun text => withField msg "content" (.str text), s)

def runIonizerPass (env : Env N) (cfg : IonizerConfig) (principalId : Option String)
    (messages : List (JsData N)) (s : CcrStore.State) : List (JsData N) :=
  if cfg.enabled = some false ∨ messages.any isNull = true then messages
  else
    merged messages (StateWalk.walk (ionizeMessage env (cfg.threshold.getD 200)
      (cfg.targetRows.getD 50) principalId) messages s).1

end OmniRoute.CcrMarkers
