import OmniRoute.ContextManager.Estimate

/-!
# Layers of context compression

The first three layers of `compressContext` in `open-sse/services/contextManager.ts`: long tool
results are cut, the oldest inline images are replaced by a placeholder, and thinking blocks are
removed from all but the last assistant message. They rewrite the content of messages and keep
their number and their roles.

A null among the messages or the parts of a content array, at which the source throws, is read here
as a value without fields.

**Main results (`sameRoles_trimToolMessages`, `sameRoles_pruneOlderInlineImages`,
`sameRoles_compressThinking`).** What has a role before a layer has it afterwards.
-/

namespace OmniRoute.ContextManager

open JsData

variable {N : Type}

def isRole (msg : JsData N) (role : String) : Bool := isText (field msg "role") role

def isType (block : JsData N) (type : String) : Bool := isText (field block "type") type

def isSystem (msg : JsData N) : Bool := isRole msg "system" || isRole msg "developer"

/-- The parts of a content array. -/
def parts (msg : JsData N) : List (JsData N) := (elements (field msg "content")).getD []

/-- The text of a literal of the source. -/
def literal (text : String) : JsData N := .str (CodeUnits.ofString text)

/-- A record literal. -/
def record (fields : List (String × JsData N)) : JsData N :=
  .obj (fields.map fun p => (CodeUnits.ofString p.1, p.2))

/-! ## Tool results -/

def cutText (maxChars : ℕ) (s : CodeUnits) : CodeUnits :=
  s.take maxChars ++ CodeUnits.ofString "\n... [truncated]"

/-- A message or block whose content is cut if it is a long text. -/
def trimContent (maxChars : ℕ) (v : JsData N) : JsData N :=
  match field v "content" with
  | some (.str s) =>
    if maxChars < s.length then withField v "content" (.str (cutText maxChars s)) else v
  | _ => v

def trimBlock (maxChars : ℕ) (block : JsData N) : JsData N :=
  if isType block "tool_result" then trimContent maxChars block else block

def trimMessage (maxChars : ℕ) (msg : JsData N) : JsData N :=
  if isRole msg "tool" then trimContent maxChars msg
  else if isRole msg "user" then
    match elements (field msg "content") with
    | some blocks => withField msg "content" (.arr (blocks.map (trimBlock maxChars)))
    | none => msg
  else msg

def trimToolMessages (maxChars : ℕ) (messages : List (JsData N)) : List (JsData N) :=
  messages.map (trimMessage maxChars)

/-! ## Images -/

def imageRemovedPlaceholder : JsData N :=
  literal "[Earlier image removed to fit context window]"

/-- `!!v` of a field. -/
def truthyField (num : JsNumbers N) (v : Option (JsData N)) : Bool := v.any (isTruthy num)

def replaceImageBlockWithPlaceholder (num : JsNumbers N) (block : JsData N) : JsData N :=
  if isType block "input_image" then
    record [("type", literal "input_text"), ("text", imageRemovedPlaceholder)]
  else if truthyField num (field block "inlineData") || truthyField num (field block "inline_data")
  then record [("text", imageRemovedPlaceholder)]
  else record [("type", literal "text"), ("text", imageRemovedPlaceholder)]

/-- Where the inline images are: the index of the message and that of the part. -/
def imageLocations (messages : List (JsData N)) : List (ℕ × ℕ) :=
  messages.zipIdx.flatMap fun m =>
    (parts m.1).zipIdx.filterMap fun part =>
      if isInlineBase64ImageBlock part.1 then some (m.2, part.2) else none

/-- A message with one part of its content array replaced. -/
def replacePart (num : JsNumbers N) (contentIndex : ℕ) (msg : JsData N) : JsData N :=
  match elements (field msg "content") with
  | some content =>
    withField msg "content"
      (.arr (content.modify contentIndex (replaceImageBlockWithPlaceholder num)))
  | none => msg

/-- The loop over the images that may go, which stops as soon as the rest fits. -/
def pruneLoop (num : JsNumbers N) (fits : List (JsData N) → Bool) :
    List (ℕ × ℕ) → List (JsData N) → ℕ → List (JsData N) × ℕ
  | [], next, pruned => (next, pruned)
  | location :: locations, next, pruned =>
    if fits next then (next, pruned)
    else pruneLoop num fits locations (next.modify location.1 (replacePart num location.2))
      (pruned + 1)

/-- The estimate of a list of messages is within a target. -/
def fits (num : JsNumbers N) (targetTokens : ℚ) (messages : List (JsData N)) : Bool :=
  decide ((estimateTokens num (.arr messages) : ℚ) ≤ targetTokens)

def defaultKeepLatestImages : ℕ := 2

/-- `override` is what the environment says of the number of images to keep. -/
def pruneOlderInlineImages (num : JsNumbers N) (override : Option ℕ) (keepLatest : Option ℚ)
    (targetTokens : Option ℚ) (messages : List (JsData N)) : List (JsData N) × ℕ :=
  let keepLatest : ℚ := keepLatest.getD (override.getD defaultKeepLatestImages)
  let locations := imageLocations messages
  if (locations.length : ℚ) ≤ keepLatest then (messages, 0)
  else
    pruneLoop num (fun next => targetTokens.any fun target => fits num target next)
      (locations.take ⌊max 0 ((locations.length : ℚ) - keepLatest)⌋₊) messages 0

/-! ## Thinking -/

def isThinking (block : JsData N) : Bool := isType block "thinking"

/-- An assistant message without its thinking blocks. -/
def dropThinking (msg : JsData N) : JsData N :=
  match elements (field msg "content") with
  | some content =>
    let filtered := content.filter fun block => !isThinking block
    withField msg "content"
      (if filtered.isEmpty then literal "[thinking compressed]" else .arr filtered)
  | none => msg

/-- The last assistant message is the one with none behind it. -/
def compressThinking : List (JsData N) → List (JsData N)
  | [] => []
  | msg :: messages =>
    (if isRole msg "assistant" && messages.any (isRole · "assistant") then dropThinking msg else msg)
      :: compressThinking messages

/-! ## Roles -/

/-- Two messages of one role. -/
def SameRole (msg msg' : JsData N) : Prop := ∀ role, isRole msg' role = isRole msg role

theorem sameRole_withField (msg w : JsData N) : SameRole msg (withField msg "content" w) :=
  fun role => by
    unfold isRole
    rw [field_withField_ne msg w (by decide)]

theorem sameRole_self (msg : JsData N) : SameRole msg msg := fun _ => rfl

theorem SameRole.isSystem_eq {msg msg' : JsData N} (h : SameRole msg msg') :
    isSystem msg' = isSystem msg := by
  unfold isSystem
  rw [h, h]

theorem sameRole_trimContent (maxChars : ℕ) (v : JsData N) :
    SameRole v (trimContent maxChars v) := by
  unfold trimContent
  split
  · split
    · exact sameRole_withField _ _
    · exact sameRole_self _
  · exact sameRole_self _

theorem sameRole_trimMessage (maxChars : ℕ) (msg : JsData N) :
    SameRole msg (trimMessage maxChars msg) := by
  unfold trimMessage
  split
  · exact sameRole_trimContent _ _
  · split
    · split
      · exact sameRole_withField _ _
      · exact sameRole_self _
    · exact sameRole_self _

theorem sameRole_replacePart (num : JsNumbers N) (i : ℕ) (msg : JsData N) :
    SameRole msg (replacePart num i msg) := by
  unfold replacePart
  split
  · exact sameRole_withField _ _
  · exact sameRole_self _

theorem sameRole_dropThinking (msg : JsData N) : SameRole msg (dropThinking msg) := by
  unfold dropThinking
  split
  · exact sameRole_withField _ _
  · exact sameRole_self _

abbrev SameRoles (messages messages' : List (JsData N)) : Prop :=
  List.Forall₂ SameRole messages messages'

theorem sameRoles_self (messages : List (JsData N)) : SameRoles messages messages :=
  List.forall₂_same.2 fun msg _ =>
    sameRole_self msg

theorem SameRoles.trans {l₁ l₂ l₃ : List (JsData N)} (h₁ : SameRoles l₁ l₂)
    (h₂ : SameRoles l₂ l₃) : SameRoles l₁ l₃ := by
  induction h₁ generalizing l₃ with
  | nil => exact h₂
  | cons h h₁ ih =>
    cases h₂ with
    | cons h' h₂ => exact .cons (fun role => (h' role).trans (h role)) (ih h₂)

theorem sameRoles_modify {f : JsData N → JsData N} (h : ∀ msg, SameRole msg (f msg))
    (messages : List (JsData N)) (i : ℕ) : SameRoles messages (messages.modify i f) := by
  induction messages generalizing i with
  | nil => cases i <;> exact .nil
  | cons msg messages ih =>
    cases i with
    | zero => exact .cons (h msg) (sameRoles_self messages)
    | succ i => exact .cons (sameRole_self msg) (ih i)

theorem sameRoles_trimToolMessages (maxChars : ℕ) (messages : List (JsData N)) :
    SameRoles messages (trimToolMessages maxChars messages) := by
  exact List.forall₂_map_right_iff.2 <| List.forall₂_same.2 fun msg _ =>
    sameRole_trimMessage maxChars msg

theorem sameRoles_pruneLoop (num : JsNumbers N) (fits : List (JsData N) → Bool)
    (locations : List (ℕ × ℕ)) (next : List (JsData N)) (pruned : ℕ) :
    SameRoles next (pruneLoop num fits locations next pruned).1 := by
  induction locations generalizing next pruned with
  | nil => exact sameRoles_self next
  | cons location locations ih =>
    rw [pruneLoop]
    split
    · exact sameRoles_self next
    · exact (sameRoles_modify (sameRole_replacePart num location.2) next location.1).trans (ih _ _)

theorem sameRoles_pruneOlderInlineImages (num : JsNumbers N) (override : Option ℕ)
    (keepLatest targetTokens : Option ℚ) (messages : List (JsData N)) :
    SameRoles messages
      (pruneOlderInlineImages num override keepLatest targetTokens messages).1 := by
  unfold pruneOlderInlineImages
  dsimp only
  split
  · exact sameRoles_self messages
  · exact sameRoles_pruneLoop _ _ _ _ _

theorem sameRoles_compressThinking (messages : List (JsData N)) :
    SameRoles messages (compressThinking messages) := by
  induction messages with
  | nil => exact .nil
  | cons msg messages ih =>
    rw [compressThinking]
    refine .cons ?_ ih
    split
    · exact sameRole_dropThinking msg
    · exact sameRole_self msg

end OmniRoute.ContextManager
