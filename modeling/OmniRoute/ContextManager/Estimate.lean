import OmniRoute.JsonWalk.Length
import OmniRoute.Lib.JsData

/-!
# Token estimates

`estimateTokens` of `open-sse/services/contextManager.ts`: four characters of JSON text are one
token, and an image or document that is carried inline counts a fixed number of tokens instead of
its text.

Four tokens of media weigh as much as sixteen characters, so an estimate is a number of characters
(`load`) divided by four and rounded up (`estimateTokens_arr`). Unlike the estimate the load is
additive: that of an array is the sum over its elements, with their commas.
-/

namespace OmniRoute.ContextManager

open JsonWalk JsData List CodeUnits

variable {N : Type}

/-! ## Media -/

def imageTokenEstimate : ℕ := 1200

def documentTokenEstimate : ℕ := imageTokenEstimate

/-- `[a-zA-Z0-9.+-]` -/
def isSubtypeUnit (u : UInt16) : Bool :=
  (97 ≤ u && u ≤ 122) || (65 ≤ u && u ≤ 90) || (48 ≤ u && u ≤ 57) || u = 46 || u = 43 || u = 45

/-- `[^;,]` -/
def isTypeUnit (u : UInt16) : Bool := u ≠ 59 && u ≠ 44

/-- A text of the form `start`, units of a class, `;base64,`, and anything. -/
def isDataUrl (start : String) (unit : UInt16 → Bool) (s : CodeUnits) : Bool :=
  (ofString start).isPrefixOf s &&
    let rest := s.drop (ofString start).length
    !(rest.takeWhile unit).isEmpty &&
      (ofString ";base64,").isPrefixOf (rest.dropWhile unit)

def isInlineBase64ImageUrl : Option (JsData N) → Bool
  | some (.str s) => isDataUrl "data:image/" isSubtypeUnit s
  | _ => false

def isInlineBase64DataUrl : Option (JsData N) → Bool
  | some (.str s) => isDataUrl "data:" isTypeUnit s
  | _ => false

def isString : Option (JsData N) → Bool
  | some (.str _) => true
  | _ => false

/-- A field of a field, if there is a value that has fields. -/
def subfield (node : JsData N) (name inner : String) : Option (JsData N) :=
  (field node name).bind fun v => field v inner

def matchesOpenAIImageUrlShape (node : JsData N) : Bool :=
  isInlineBase64ImageUrl (field node "image_url") ||
    isInlineBase64ImageUrl (subfield node "image_url" "url")

def matchesAiSdkImageShape (node : JsData N) : Bool :=
  isText (field node "type") "image" && isInlineBase64ImageUrl (field node "image")

def matchesClaudeSourceShape (node : JsData N) : Bool :=
  isText (field node "type") "image" &&
    (isText (subfield node "source" "type") "base64" && isString (subfield node "source" "data"))

/-- `a ?? b` -/
def orElseNullish : Option (JsData N) → Option (JsData N) → Option (JsData N)
  | none, w => w
  | some .null, w => w
  | v, _ => v

def matchesGeminiInlineDataShape (node : JsData N) : Bool :=
  isString ((orElseNullish (field node "inlineData") (field node "inline_data")).bind fun v =>
    field v "data")

def matchesOpenAIFileShape (node : JsData N) : Bool :=
  if isText (field node "type") "input_file" then isInlineBase64DataUrl (field node "file_data")
  else isText (field node "type") "file" &&
    (isInlineBase64DataUrl (subfield node "file" "file_data") ||
      isInlineBase64DataUrl (subfield node "file" "data"))

def matchesClaudeDocumentShape (node : JsData N) : Bool :=
  isText (field node "type") "document" &&
    (isText (subfield node "source" "type") "base64" && isString (subfield node "source" "data"))

def isInlineBase64DocumentBlock (node : JsData N) : Bool :=
  matchesOpenAIFileShape node || matchesClaudeDocumentShape node

def isInlineBase64ImageBlock (node : JsData N) : Bool :=
  matchesOpenAIImageUrlShape node || matchesAiSdkImageShape node ||
    matchesClaudeSourceShape node || matchesGeminiInlineDataShape node

/-- The names that decide whether a record is a piece of media. -/
def mediaFields : List String :=
  ["image_url", "type", "image", "source", "inlineData", "inline_data", "file_data", "file"]

/-! ## Estimates -/

variable (num : JsNumbers N)

/-- What stands for a piece of media while the text is measured. -/
def mediaNode (name : String) (tokens : ℕ) : JsData N :=
  .obj [(ofString name, .num (num.ofNat tokens))]

mutual

/-- The node without its media, and the tokens of these. -/
def extractImageTokens : JsData N → JsData N × ℕ
  | .arr items => (.arr (extractItems items).1, (extractItems items).2)
  | .obj fields =>
    if isInlineBase64ImageBlock (.obj fields) then
      (mediaNode num "__image_token_estimate__" imageTokenEstimate, imageTokenEstimate)
    else if isInlineBase64DocumentBlock (.obj fields) then
      (mediaNode num "__document_token_estimate__" documentTokenEstimate, documentTokenEstimate)
    else (.obj (extractFields fields).1, (extractFields fields).2)
  | .null => (.null, 0)
  | .bool b => (.bool b, 0)
  | .num n => (.num n, 0)
  | .str s => (.str s, 0)

def extractItems : List (JsData N) → List (JsData N) × ℕ
  | [] => ([], 0)
  | item :: items =>
    ((extractImageTokens item).1 :: (extractItems items).1,
      (extractImageTokens item).2 + (extractItems items).2)

def extractFields : List (CodeUnits × JsData N) → List (CodeUnits × JsData N) × ℕ
  | [] => ([], 0)
  | (key, item) :: fields =>
    ((key, (extractImageTokens item).1) :: (extractFields fields).1,
      (extractImageTokens item).2 + (extractFields fields).2)

end

/-- `Math.ceil(length / CHARS_PER_TOKEN)` -/
def charTokens (length : ℕ) : ℕ := (length + 3) / 4

def estimateTokens (text : JsData N) : ℕ :=
  if !isTruthy num text then 0
  else
    match text with
    | .str s => charTokens s.length
    | text =>
      let extracted := extractImageTokens num text
      charTokens (jsonLength num.toJsNumerals (toJs extracted.1)) + extracted.2

/-! ## Loads -/

/-- The length of the JSON text of a value. -/
def textLength (v : JsData N) : ℕ := jsonLength num.toJsNumerals (toJs v)

/-- The characters that a value is measured at. -/
def load (v : JsData N) : ℕ :=
  textLength num (extractImageTokens num v).1 + 4 * (extractImageTokens num v).2

/-- The load of some elements with a comma behind each. -/
def itemsLoad (items : List (JsData N)) : ℕ := (items.map fun v => load num v + 1).sum

/-- The load of a field with its key and a comma behind it. -/
def fieldLoad (p : CodeUnits × JsData N) : ℕ := encodedStringLength p.1 + 1 + load num p.2 + 1

variable (items : List (JsData N))

theorem lengthOfItems_toItems (first : Bool) :
    lengthOfItems num.toJsNumerals first (toItems items) =
      (items.map fun v => textLength num v + 1).sum - (if first then 1 else 0) := by
  induction items generalizing first with
  | nil => cases first <;> rfl
  | cons item items ih =>
    rw [toItems, lengthOfItems, isOmitted_toJs, if_neg Bool.false_ne_true, ih false, map_cons,
      sum_cons]
    show _ = textLength num item + 1 + _ - _
    unfold textLength jsonLength
    cases first
    · simp [commaLength]
      omega
    · simp [commaLength]

variable (fields : List (CodeUnits × JsData N))

theorem lengthOfEntries_toEntries (first : Bool) :
    lengthOfEntries num.toJsNumerals first (toEntries fields) =
      (fields.map fun p => encodedStringLength p.1 + 1 + textLength num p.2 + 1).sum -
        (if first then 1 else 0) := by
  induction fields generalizing first with
  | nil => cases first <;> rfl
  | cons p fields ih =>
    obtain ⟨key, item⟩ := p
    rw [toEntries, lengthOfEntries, isOmitted_toJs, if_neg Bool.false_ne_true, ih false, map_cons,
      sum_cons]
    unfold textLength jsonLength
    cases first
    · simp [commaLength]
      omega
    · simp [commaLength]

theorem textLength_arr :
    textLength num (.arr items) = 2 + ((items.map fun v => textLength num v + 1).sum - 1) := by
  rw [textLength, toJs, jsonLength, lengthOf, lengthOfItems_toItems, if_pos rfl]

theorem textLength_obj :
    textLength num (.obj fields) =
      2 + ((fields.map fun p => encodedStringLength p.1 + 1 + textLength num p.2 + 1).sum - 1) := by
  rw [textLength, toJs, jsonLength, lengthOf, lengthOfEntries_toEntries, if_pos rfl]

/-- The elements that are measured and the tokens counted for them make the load. -/
theorem extractItems_load :
    ((extractItems num items).1.map fun v => textLength num v + 1).sum +
      4 * (extractItems num items).2 = itemsLoad num items := by
  induction items with
  | nil => rfl
  | cons item items ih =>
    unfold itemsLoad at ih ⊢
    rw [extractItems, map_cons, sum_cons, map_cons, sum_cons, ← ih, load]
    dsimp only
    omega

theorem extractFields_load :
    ((extractFields num fields).1.map fun p =>
        encodedStringLength p.1 + 1 + textLength num p.2 + 1).sum +
      4 * (extractFields num fields).2 = (fields.map (fieldLoad num)).sum := by
  induction fields with
  | nil => rfl
  | cons p fields ih =>
    obtain ⟨key, item⟩ := p
    rw [extractFields, map_cons, sum_cons, map_cons, sum_cons, ← ih, fieldLoad, load]
    dsimp only
    omega

theorem load_arr : load num (.arr items) = 2 + (itemsLoad num items - 1) := by
  rw [load, extractImageTokens, textLength_arr, ← extractItems_load]
  dsimp only
  cases items with
  | nil => rfl
  | cons item items =>
    rw [extractItems, map_cons, sum_cons]
    omega

def isMedia (v : JsData N) : Bool := isInlineBase64ImageBlock v || isInlineBase64DocumentBlock v

theorem load_obj {fields : List (CodeUnits × JsData N)} (h : isMedia (JsData.obj fields) = false) :
    load num (.obj fields) = 2 + ((fields.map (fieldLoad num)).sum - 1) := by
  rw [isMedia, Bool.or_eq_false_iff] at h
  rw [load, extractImageTokens, if_neg (by simp [h.1]), if_neg (by simp [h.2]), textLength_obj,
    ← extractFields_load]
  dsimp only
  cases fields with
  | nil => rfl
  | cons p fields =>
    obtain ⟨key, item⟩ := p
    rw [extractFields, map_cons, sum_cons]
    omega

theorem load_str (s : CodeUnits) : load num (.str s) = encodedStringLength s := rfl

/-- Every value has a character at least. -/
theorem one_le_itemsLoad {items : List (JsData N)} (h : items ≠ []) : 1 ≤ itemsLoad num items := by
  cases items with
  | nil => exact absurd rfl h
  | cons item items =>
    rw [itemsLoad, map_cons, sum_cons]
    omega

theorem itemsLoad_cons (item : JsData N) (items : List (JsData N)) :
    itemsLoad num (item :: items) = load num item + 1 + itemsLoad num items := by
  rw [itemsLoad, map_cons, sum_cons]
  rfl

theorem itemsLoad_append (l₁ l₂ : List (JsData N)) :
    itemsLoad num (l₁ ++ l₂) = itemsLoad num l₁ + itemsLoad num l₂ := by
  rw [itemsLoad, map_append, sum_append]
  rfl

theorem itemsLoad_sublist {l₁ l₂ : List (JsData N)} (h : l₁.Sublist l₂) :
    itemsLoad num l₁ ≤ itemsLoad num l₂ := sum_sublist_le _ h

theorem itemsLoad_filter_add (p : JsData N → Bool) (items : List (JsData N)) :
    itemsLoad num (items.filter p) + itemsLoad num (items.filter fun v => !p v) =
      itemsLoad num items := by
  induction items with
  | nil => rfl
  | cons item items ih =>
    rw [itemsLoad_cons]
    cases hp : p item with
    | true =>
      rw [filter_cons_of_pos hp, filter_cons_of_neg (by simp [hp]), itemsLoad_cons]
      omega
    | false =>
      rw [filter_cons_of_neg (by simp [hp]), filter_cons_of_pos (by simp [hp]), itemsLoad_cons]
      omega

theorem load_arr_mono {l₁ l₂ : List (JsData N)} (h : itemsLoad num l₁ ≤ itemsLoad num l₂) :
    load num (.arr l₁) ≤ load num (.arr l₂) := by
  rw [load_arr, load_arr]
  omega

/-- The estimate of an array is its load in tokens. -/
theorem estimateTokens_arr :
    estimateTokens num (.arr items) = charTokens (load num (.arr items)) := by
  unfold estimateTokens
  rw [if_neg (by simp [isTruthy])]
  show charTokens (textLength num (extractImageTokens num (.arr items)).1) +
    (extractImageTokens num (.arr items)).2 = charTokens (load num (.arr items))
  unfold charTokens load
  omega

theorem charTokens_mono {a b : ℕ} (h : a ≤ b) : charTokens a ≤ charTokens b := by
  unfold charTokens
  omega

/-! ## Writing a field -/

variable {v w : JsData N} {name : String}

/-- A field that says nothing about media does not make media of a record. -/
theorem mediaBlock_withField (h : ∀ key ∈ mediaFields, ofString key ≠ ofString name) :
    isInlineBase64ImageBlock (withField v name w) = isInlineBase64ImageBlock v ∧
      isInlineBase64DocumentBlock (withField v name w) = isInlineBase64DocumentBlock v := by
  have hkey : ∀ key ∈ mediaFields, field (withField v name w) key = field v key := fun key hk =>
    field_withField_ne v w (h key hk)
  simp only [mediaFields, forall_mem_cons] at hkey
  obtain ⟨himageUrl, htype, himage, hsource, hinlineData, hinline, hfileData, hfile, -⟩ := hkey
  simp only [isInlineBase64ImageBlock, isInlineBase64DocumentBlock,
    matchesOpenAIImageUrlShape, matchesAiSdkImageShape, matchesClaudeSourceShape,
    matchesGeminiInlineDataShape, matchesOpenAIFileShape, matchesClaudeDocumentShape, subfield,
    himageUrl, htype, himage, hsource, hinlineData, hinline, hfileData, hfile, and_self]

theorem isMedia_withField (h : ∀ key ∈ mediaFields, ofString key ≠ ofString name) :
    isMedia (withField v name w) = isMedia v := by
  rw [isMedia, (mediaBlock_withField h).1, (mediaBlock_withField h).2, isMedia]

/-- A piece of media weighs the same whatever else its record holds. -/
theorem load_withField_media (hname : ∀ key ∈ mediaFields, ofString key ≠ ofString name)
    (hmedia : isMedia v = true) : load num (withField v name w) = load num v := by
  cases v with
  | obj r =>
    obtain ⟨himage, hdocument⟩ := mediaBlock_withField (v := .obj r) (w := w) hname
    rw [isMedia, Bool.or_eq_true] at hmedia
    show load num (.obj (set r name w)) = load num (.obj r)
    rw [load, load, extractImageTokens, extractImageTokens]
    change isInlineBase64ImageBlock (JsData.obj (set r name w)) = _ at himage
    change isInlineBase64DocumentBlock (JsData.obj (set r name w)) = _ at hdocument
    rw [himage, hdocument]
    split
    · rfl
    · next hno =>
      rw [if_pos (hmedia.resolve_left hno), if_pos (hmedia.resolve_left hno)]
  | _ => rfl

/-- A field that is written trades the load of the old value for that of the new one. -/
theorem load_withField {x : JsData N} (hx : field v name = some x)
    (hname : ∀ key ∈ mediaFields, ofString key ≠ ofString name) (hmedia : isMedia v = false) :
    load num (withField v name w) + load num x = load num v + load num w := by
  cases v with
  | obj r =>
    have hmedia' : isMedia (JsData.obj (set r name w)) = false :=
      (isMedia_withField (v := .obj r) hname).trans hmedia
    have hsum := sum_set (f := fieldLoad num) (v := w) hx
    have hold := le_sum_of_get (f := fieldLoad num) hx
    have hnew := le_sum_of_get (f := fieldLoad num) (get_set_self r name w)
    show load num (.obj (set r name w)) + load num x = _
    rw [load_obj num hmedia, load_obj num hmedia']
    simp only [fieldLoad] at hsum hold hnew
    omega
  | _ => exact absurd hx nofun

/-- A field that is added comes with its key. -/
theorem load_withField_new {x : JsData N} {other : String} (hx : field v name = none)
    (hother : field v other = some x) (hname : ∀ key ∈ mediaFields, ofString key ≠ ofString name)
    (hmedia : isMedia v = false) :
    load num (withField v name w) = load num v + fieldLoad num (ofString name, w) := by
  cases v with
  | obj r =>
    have hmedia' : isMedia (JsData.obj (set r name w)) = false :=
      (isMedia_withField (v := .obj r) hname).trans hmedia
    have hsum := sum_set_new (f := fieldLoad num) (v := w) hx
    have hpos := le_sum_of_get (f := fieldLoad num) hother
    show load num (.obj (set r name w)) = _
    rw [load_obj num hmedia, load_obj num hmedia', hsum]
    simp only [fieldLoad] at hpos ⊢
    omega
  | _ => exact absurd hother nofun

/-- A field is not made heavier by a lighter value. -/
theorem load_withField_le {x : JsData N} (hx : field v name = some x)
    (hname : ∀ key ∈ mediaFields, ofString key ≠ ofString name)
    (hle : load num w ≤ load num x) : load num (withField v name w) ≤ load num v := by
  cases hmedia : isMedia v with
  | true => exact (load_withField_media num hname hmedia).le
  | false =>
    have hload := load_withField num (w := w) hx hname hmedia
    omega

/-- The field that the passes write. -/
theorem content_not_media (key : String) (h : key ∈ mediaFields) :
    ofString key ≠ ofString "content" := by
  revert key
  decide

end OmniRoute.ContextManager
