import OmniRoute.ContextManager.Repair
import OmniRoute.ToolPairing.Purify

/-!
# Context compression

`compressContext` of `open-sse/services/contextManager.ts`: layer by layer the messages of a request
are made shorter until their estimate is within the target. The last layer keeps the system messages
and a suffix of the others, found by a search that ends at two messages, and then says in a notice
how many messages were dropped. The notice is written after the candidate was measured.
-/

namespace OmniRoute.ContextManager

open JsData

variable {N : Type} [DecidableEq N] (num : JsNumbers N)

/-! ## Purification -/

/-- `list.slice(-keep)`, which is everything when `keep` is zero. -/
def sliceLast (keep : ℕ) (list : List (JsData N)) : List (JsData N) :=
  if keep = 0 then list else list.drop (list.length - keep)

def systemPart (messages : List (JsData N)) : List (JsData N) := messages.filter isSystem

def nonSystemPart (messages : List (JsData N)) : List (JsData N) :=
  messages.filter fun m => !isSystem m

/-- What is kept at a cut point, after the passes. -/
def candidate (messages : List (JsData N)) (keep : ℕ) : List (JsData N) :=
  repair num (systemPart messages ++ sliceLast keep (nonSystemPart messages))

/-- The cut point at which the search ends. -/
def keepOf (targetTokens : ℚ) (messages : List (JsData N)) : ℕ :=
  ToolPairing.searchKeep (fun keep => fits num targetTokens (candidate num messages keep))
    (nonSystemPart messages).length

def droppedNotice (dropped : ℕ) : CodeUnits := CodeUnits.ofString (ToolPairing.droppedNotice dropped)

/-- The notice in front of some content, which it replaces if that is neither a text nor an array. -/
def noticedContent (notice : CodeUnits) : Option (JsData N) → JsData N
  | some (.str s) => .str (if s = [] then notice else notice ++ CodeUnits.ofString "\n" ++ s)
  | some (.arr content) =>
    .arr (record [("type", literal "text"), ("text", .str notice)] :: content)
  | _ => .str notice

/-- The leading system message with the notice. -/
def noticeInto (notice : CodeUnits) (first : JsData N) : JsData N :=
  withField first "content" (noticedContent notice (field first "content"))

def noticeMessage (notice : CodeUnits) : JsData N :=
  record [("role", literal "system"), ("content", .str notice)]

/-- The notice goes into the leading system message, or into a new one. -/
def withNotice (notice : CodeUnits) : List (JsData N) → List (JsData N)
  | [] => [noticeMessage notice]
  | first :: rest =>
    if isSystem first then noticeInto notice first :: rest
    else noticeMessage notice :: first :: rest

def purifyHistory (messages : List (JsData N)) (targetTokens : ℚ) : List (JsData N) :=
  let keep := keepOf num targetTokens messages
  let result := candidate num messages keep
  let count := (nonSystemPart messages).length
  if keep < count then withNotice (droppedNotice (count - keep)) result else result

/-! ## Compression -/

structure CompressOptions where
  maxTokens : Option ℚ := none
  reserveTokens : Option ℚ := none
  keepLatestImages : Option ℚ := none

/-- What is found outside of the request: the token limit of the provider and model, and the numbers
that environment variables set. -/
structure Surroundings where
  tokenLimit : ℚ
  reserveTokensOverride : Option ℕ := none
  keepLatestImagesOverride : Option ℕ := none

def defaultReserveTokens (maxTokens : ℚ) : ℚ := min 16000 (max 256 ⌊maxTokens * 15 / 100⌋)

def targetTokensOf (surroundings : Surroundings) (options : CompressOptions) : ℚ :=
  let maxTokens := (options.maxTokens.filter fun n => n ≠ 0).getD surroundings.tokenLimit
  let reserve := options.reserveTokens.getD
    ((surroundings.reserveTokensOverride.map fun n => (n : ℚ)).getD
      (defaultReserveTokens maxTokens))
  let reserveTokens := min reserve (max 0 (maxTokens - 1))
  max 0 (maxTokens - reserveTokens)

structure CompressStats where
  original : ℕ
  layers : List (String × ℕ) := []
  final : ℕ
  deriving DecidableEq

structure CompressResult (N : Type) where
  body : JsData N
  compressed : Bool
  stats : Option CompressStats

/-- What is returned when some layers have been applied. -/
def compressedWith (body : JsData N) (messages : List (JsData N)) (original : ℕ)
    (layers : List (String × ℕ)) : CompressResult N :=
  { body := withField body "messages" (.arr messages)
    compressed := true
    stats := some { original, layers, final := estimateTokens num (.arr messages) } }

def maxToolChars : ℕ := 2000

def compressContext (surroundings : Surroundings) (body : JsData N) (options : CompressOptions) :
    CompressResult N :=
  match elements (field body "messages") with
  | none => { body, compressed := false, stats := none }
  | some messages =>
    let targetTokens := targetTokensOf surroundings options
    let original := estimateTokens num (.arr messages)
    if fits num targetTokens messages then
      { body, compressed := false, stats := some { original, final := original } }
    else
      let trimmed := trimToolMessages maxToolChars messages
      let layers := [("trim_tools", estimateTokens num (.arr trimmed))]
      if fits num targetTokens trimmed then compressedWith num body trimmed original layers
      else
        let imagePrune := pruneOlderInlineImages num surroundings.keepLatestImagesOverride
          options.keepLatestImages targetTokens trimmed
        let pruned := if 0 < imagePrune.2 then imagePrune.1 else trimmed
        let layers := layers ++
          if 0 < imagePrune.2 then [("prune_images", estimateTokens num (.arr pruned))] else []
        if 0 < imagePrune.2 && fits num targetTokens pruned then
          compressedWith num body pruned original layers
        else
          let thought := compressThinking pruned
          let layers := layers ++ [("compress_thinking", estimateTokens num (.arr thought))]
          if fits num targetTokens thought then compressedWith num body thought original layers
          else
            let purified := purifyHistory num thought targetTokens
            compressedWith num body purified original
              (layers ++ [("purify_history", estimateTokens num (.arr purified))])

end OmniRoute.ContextManager
