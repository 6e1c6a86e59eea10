import OmniRoute.CcrMarkers.Replace

/-!
# The fuzzy pass of the session dedup engine

`open-sse/services/compression/engines/session-dedup/fuzzy.ts`: a message whose text is much like
that of an earlier one goes into the block store and becomes a marker. Likeness is the share of
common shingles, hashes of some words in a row.
-/

namespace OmniRoute.CcrMarkers

open JsData

variable {N : Type}

structure FuzzyConfig where
  enabled : Bool := false
  minJaccard : Option ℚ := none
  shingleSize : Option ℕ := none

def maxFuzzyBlocks : ℕ := 200

/-! ## Likeness -/

def fnv1a (s : CodeUnits) : UInt32 :=
  s.foldl (fun h unit => (h ^^^ unit.toUInt32) * 0x01000193) 0x811c9dc5

/-- `text.split(/\s+/).filter(Boolean)` -/
def words (text : CodeUnits) : List CodeUnits :=
  (text.splitOnP CodeUnits.isSpace).filter fun word => !word.isEmpty

/-- The shingles of a text, each once. -/
def shingles (text : CodeUnits) (k : ℕ) : List UInt32 :=
  let words := words text
  if words.length < k then []
  else
    ((List.range (words.length + 1 - k)).map fun i =>
      fnv1a ([0x20].intercalate ((words.drop i).take k))).dedup

def jaccard (a b : List UInt32) : ℚ :=
  if a = [] ∧ b = [] then 0
  else
    let (small, large) := if a.length ≤ b.length then (a, b) else (b, a)
    let inter := small.countP fun x => x ∈ large
    let union := a.length + b.length - inter
    if union = 0 then 0 else (inter : ℚ) / union

structure FuzzyBlock where
  text : CodeUnits
  index : ℕ
  deriving DecidableEq

/-- The earlier block that is most alike: its position and how much. -/
def bestMatch (minJaccard : ℚ) (set : List UInt32) (earlier : List (List UInt32)) :
    Option (ℕ × ℚ) :=
  earlier.zipIdx.foldl (fun best (other, j) =>
    let sim := jaccard set other
    if sim ≥ minJaccard ∧ sim > (best.map Prod.snd).getD 0 then some (j, sim) else best) none

/-- The blocks that are much like an earlier one. -/
def findNearDuplicates (blocks : List FuzzyBlock) (minJaccard : ℚ) (maxBlocks shingleSize : ℕ) :
    List FuzzyBlock :=
  if blocks.length > maxBlocks then []
  else
    let sets := blocks.map fun b => shingles b.text shingleSize
    (blocks.zipIdx.filter fun (b, i) =>
      (bestMatch minJaccard (shingles b.text shingleSize) (sets.take i)).isSome).map Prod.fst

/-! ## The pass -/

/-- The texts that are compared. -/
def fuzzyBlocks (minBlockChars : ℚ) (messages : List (JsData N)) : List FuzzyBlock :=
  messages.zipIdx.filterMap fun (msg, index) =>
    if isText (field msg "role") "system" then none
    else
      match text? (field msg "content") with
      | some text => if (text.length : ℚ) ≥ minBlockChars then some { text, index } else none
      | none => none

/-- The marker of a block, if the store takes it and the marker is shorter. -/
def fuzzyMarker (env : Env N) (principalId : Option String) (block : FuzzyBlock)
    (s : CcrStore.State) : Option CodeUnits × CcrStore.State :=
  let (stored, s) := tryStoreBlock env principalId block.text s
  match stored with
  | none => (none, s)
  | some hash =>
    let marker := buildCcrMarker hash block.text.length
    if marker.length < block.text.length then (some marker, s) else (none, s)

/-- The markers that replace messages, by position. -/
def fuzzyReplacements (env : Env N) (principalId : Option String) (nearDups : List FuzzyBlock)
    (s : CcrStore.State) : List (ℕ × CodeUnits) :=
  (nearDups.zip (StateWalk.walk (fuzzyMarker env principalId) nearDups s).1).filterMap
    fun (block, marker) => marker.map fun marker => (block.index, marker)

/-- The near duplicates of a pass; none if it is off or a message cannot be read. -/
def nearDuplicates (cfg : FuzzyConfig) (minBlockChars : ℚ) (messages : List (JsData N)) :
    List FuzzyBlock :=
  if cfg.enabled = false ∨ messages.any isNull = true then []
  else
    findNearDuplicates (fuzzyBlocks minBlockChars messages) (cfg.minJaccard.getD (17 / 20))
      maxFuzzyBlocks (cfg.shingleSize.getD 3)

def replaceAt (replacements : List (ℕ × CodeUnits)) (msg : JsData N) (index : ℕ) : JsData N :=
  match replacements.lookup index with
  | some marker => withField msg "content" (.str marker)
  | none => msg

def runFuzzyPass (env : Env N) (cfg : FuzzyConfig) (minBlockChars : ℚ) (principalId : Option String)
    (messages : List (JsData N)) (s : CcrStore.State) : List (JsData N) :=
  let replacements :=
    fuzzyReplacements env principalId (nearDuplicates cfg minBlockChars messages) s
  messages.zipIdx.map fun (msg, index) => replaceAt replacements msg index

end OmniRoute.CcrMarkers
