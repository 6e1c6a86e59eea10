import OmniRoute.ClaudeStream.Markdown
import OmniRoute.Lib.JsString
import OmniRoute.Lib.Json

/-!
# Tool calls written as text

Some models write tool calls into the text: as an invoke element, as JSON in a tool_call element or
after the word TOOL_CALL. `extractXmlInvokeBlocks` takes them out; markup that is not complete yet
waits for the next delta. `JSON.parse` is a parameter.

A text without a marker, and so every part of one (`firstMarker_infix`), is left as it is
(`extract_of_noMarker`).
-/

namespace OmniRoute.ClaudeStream

open List Option

variable {N : Type}

structure XmlToolCall (N : Type) where
  id : String
  name : String
  args : Json N

/-! ## Markers -/

/-- The rest after a literal. -/
def afterLiteral (literal text : List Char) : Option (List Char) :=
  if literal.isPrefixOf text then some (text.drop literal.length) else none

/-- The rest after at least one white space character. -/
def afterSpaces (text : List Char) : Option (List Char) :=
  if (text.takeWhile isJsSpace).isEmpty then none else some (text.dropWhile isJsSpace)

/-- The text up to a quotation mark and the rest after it. -/
def quoted (text : List Char) : Option (List Char × List Char) :=
  match text.dropWhile fun c => c ≠ '"' with
  | [] => none
  | _ :: rest => some (text.takeWhile fun c => c ≠ '"', rest)

/-- ` name="…"` -/
def nameAttribute (text : List Char) : Option (List Char × List Char) :=
  (afterSpaces text).bind fun rest =>
    (afterLiteral ['n', 'a', 'm', 'e', '=', '"'] rest).bind quoted

/-- A marker with the text after it. -/
inductive Marker
  | invoke (name after : List Char)
  | toolCallTag (after : List Char)
  | toolCallText (name after : List Char)

def invokeStart : List Char := ['<', 'i', 'n', 'v', 'o', 'k', 'e']
def invokeEnd : List Char := ['<', '/', 'i', 'n', 'v', 'o', 'k', 'e', '>']
def toolCallStart : List Char := ['<', 't', 'o', 'o', 'l', '_', 'c', 'a', 'l', 'l', '>']
def toolCallEnd : List Char := ['<', '/', 't', 'o', 'o', 'l', '_', 'c', 'a', 'l', 'l', '>']
def toolCallWord : List Char := ['T', 'O', 'O', 'L', '_', 'C', 'A', 'L', 'L']
def parameterStart : List Char := ['<', 'p', 'a', 'r', 'a', 'm', 'e', 't', 'e', 'r']
def parameterEnd : List Char :=
  ['<', '/', 'p', 'a', 'r', 'a', 'm', 'e', 't', 'e', 'r', '>']

/-- `/<invoke\s+name="([^"]*)"\s*>/` at the beginning of a text. -/
def invokeAt (text : List Char) : Option Marker :=
  (afterLiteral invokeStart text).bind fun rest =>
    (nameAttribute rest).bind fun (name, rest) =>
      (afterLiteral ['>'] (rest.dropWhile isJsSpace)).map (.invoke name)

/-- `/<tool_call>/` -/
def toolCallTagAt (text : List Char) : Option Marker :=
  (afterLiteral toolCallStart text).map .toolCallTag

/-- `/TOOL_CALL\s+([A-Za-z0-9_]+):\s*/` -/
def toolCallTextAt (text : List Char) : Option Marker :=
  (afterLiteral toolCallWord text).bind fun rest =>
    (afterSpaces rest).bind fun rest =>
      if (rest.takeWhile isWordChar).isEmpty then none
      else (afterLiteral [':'] (rest.dropWhile isWordChar)).map fun after =>
        .toolCallText (rest.takeWhile isWordChar) (after.dropWhile isJsSpace)

/-- No two of the patterns match at one place. -/
def markerAt (text : List Char) : Option Marker :=
  (invokeAt text).or ((toolCallTagAt text).or (toolCallTextAt text))

/-- The first marker: the text before it, the text from it on, and the marker. -/
def firstMarker : List Char → Option (List Char × List Char × Marker)
  | [] => none
  | c :: text =>
    match markerAt (c :: text) with
    | some marker => some ([], c :: text, marker)
    | none => (firstMarker text).map fun (before, rest, marker) => (c :: before, rest, marker)

/-- The place of a literal in a text. -/
def indexOfLiteral (literal : List Char) : List Char → Option ℕ
  | [] => if literal.isPrefixOf [] then some 0 else none
  | c :: text =>
    if literal.isPrefixOf (c :: text) then some 0
    else (indexOfLiteral literal text).map fun i => i + 1

/-! ## Arguments -/

def trimChars (text : List Char) : List Char := (jsTrim (String.ofList text)).toList

/-- `/<parameter\s+name="([^"]*)"[^>]*>([\s\S]*?)<\/parameter>/` at the beginning of a text: the
name, the value and the rest. -/
def parameterAt (text : List Char) : Option (String × String × List Char) :=
  (afterLiteral parameterStart text).bind fun rest =>
    (nameAttribute rest).bind fun (name, rest) =>
      (afterLiteral ['>'] (rest.dropWhile fun c => c ≠ '>')).bind fun rest =>
        (indexOfLiteral parameterEnd rest).map fun i =>
          (String.ofList name, String.ofList (trimChars (rest.take i)),
            rest.drop (i + parameterEnd.length))

/-- A field of an object is replaced in its place or added at the end. -/
def setField (fields : List (String × Json N)) (name : String) (value : Json N) :
    List (String × Json N) :=
  if fields.any fun f => f.1 = name then
    fields.map fun f => if f.1 = name then (name, value) else f
  else fields ++ [(name, value)]

/-- The parameters of an invoke element; a match leaves a shorter text, so the length is enough. -/
def parameters : ℕ → List Char → List (String × Json N) → List (String × Json N)
  | 0, _, args => args
  | _ + 1, [], args => args
  | rounds + 1, c :: text, args =>
    match parameterAt (c :: text) with
    | some (name, value, rest) => parameters rounds rest (setField args name (.str value))
    | none => parameters rounds text args

/-- The state of the search for the end of a JSON object. -/
structure BraceScan where
  depth : ℤ := 0
  inString : Bool := false
  escape : Bool := false

/-- Where the first object of a text ends, if it does. -/
def jsonEndIndex : BraceScan → List Char → Option ℕ
  | _, [] => none
  | st, c :: text =>
    if st.escape then (jsonEndIndex { st with escape := false } text).map fun i => i + 1
    else if c = '\\' ∧ st.inString then
      (jsonEndIndex { st with escape := true } text).map fun i => i + 1
    else if c = '"' then
      (jsonEndIndex { st with inString := !st.inString } text).map fun i => i + 1
    else if st.inString then (jsonEndIndex st text).map fun i => i + 1
    else if c = '{' then
      (jsonEndIndex { st with depth := st.depth + 1 } text).map fun i => i + 1
    else if c = '}' then
      if st.depth - 1 = 0 then some 1
      else (jsonEndIndex { st with depth := st.depth - 1 } text).map fun i => i + 1
    else (jsonEndIndex st text).map fun i => i + 1

def Json.field (value : Json N) (name : String) : Json N :=
  match value with
  | .obj fields => ((fields.find? fun f => f.1 = name).map Prod.snd).getD .null
  | _ => .null

/-- The first of some values that is true, or a default. -/
def firstTruthy [Zero N] [DecidableEq N] (values : List (Json N)) (default : Json N) : Json N :=
  (values.find? Json.truthy).getD default

/-- The body of a tool_call element: nothing if it is no call that can be read, a call without a
name if it names none. -/
def readToolCall [Zero N] [DecidableEq N] (parse : String → Option (Json N)) (text : List Char) :
    Option (Option (String × Json N)) :=
  match parse (String.ofList (trimChars text)) with
  | none => none
  | some .null => none
  | some parsed =>
    let rawArgs := firstTruthy
      [Json.field parsed "arguments", Json.field parsed "args", Json.field parsed "parameters"]
      (.obj [])
    let args :=
      match rawArgs with
      | .str s => parse s
      | value => some value
    match args with
    | none => none
    | some args =>
      match firstTruthy [Json.field parsed "name", Json.field parsed "tool_name"] (.str "") with
      | .str name => some (if name = "" then none else some (name, args))
      | _ => some none

/-! ## Extraction -/

structure Extracted (N : Type) where
  cleaned : List Char
  toolCalls : List (XmlToolCall N)
  /-- Markup that is not complete, for the next delta. -/
  buffer : List Char

/-- `toolu_<kind>_<time>_<number>` -/
def markupCallId (kind : String) (now number : ℕ) : String :=
  "toolu_" ++ kind ++ "_" ++ toString now ++ "_" ++ toString number

/-- The loop; every round takes at least a marker off the text. -/
def extractLoop [Zero N] [DecidableEq N] (parse : String → Option (Json N)) (now : ℕ) :
    ℕ → List Char → Extracted N → Extracted N
  | 0, _, acc => acc
  | rounds + 1, remaining, acc =>
    match firstMarker remaining with
    | none => { acc with cleaned := acc.cleaned ++ remaining }
    | some (before, rest, .invoke name after) =>
      let acc := { acc with cleaned := acc.cleaned ++ before }
      match indexOfLiteral invokeEnd rest with
      | none => { acc with buffer := rest }
      | some i =>
        let innerXml := (rest.take i).drop (rest.length - after.length)
        let call : XmlToolCall N :=
          { id := markupCallId "xml" now acc.toolCalls.length
            name := String.ofList name
            args := .obj (parameters (innerXml.length + 1) innerXml []) }
        extractLoop parse now rounds (rest.drop (i + invokeEnd.length))
          { acc with toolCalls := acc.toolCalls ++ [call] }
    | some (before, rest, .toolCallTag _) =>
      let acc := { acc with cleaned := acc.cleaned ++ before }
      match indexOfLiteral toolCallEnd rest with
      | none => { acc with buffer := rest }
      | some i =>
        let fullLength := i + toolCallEnd.length
        let acc :=
          match readToolCall parse ((rest.take i).drop toolCallStart.length) with
          | none => { acc with cleaned := acc.cleaned ++ rest.take fullLength }
          | some none => acc
          | some (some (name, args)) =>
            { acc with toolCalls := acc.toolCalls ++
                [{ id := markupCallId "txt" now acc.toolCalls.length, name, args }] }
        extractLoop parse now rounds (rest.drop fullLength) acc
    | some (before, rest, .toolCallText name after) =>
      let acc := { acc with cleaned := acc.cleaned ++ before }
      match jsonEndIndex {} after with
      | none => { acc with buffer := rest }
      | some i =>
        let fullLength := (rest.length - after.length) + i
        let acc :=
          match parse (String.ofList (after.take i)) with
          | none => { acc with cleaned := acc.cleaned ++ rest.take fullLength }
          | some args =>
            { acc with toolCalls := acc.toolCalls ++
                [{ id := markupCallId "txt" now acc.toolCalls.length
                   name := String.ofList name, args }] }
        extractLoop parse now rounds (rest.drop fullLength) acc

/-- `buffer` is the incomplete markup of the deltas before. -/
def extractXmlInvokeBlocks [Zero N] [DecidableEq N] (parse : String → Option (Json N)) (now : ℕ)
    (text buffer : List Char) : Extracted N :=
  extractLoop parse now ((buffer ++ text).length + 1) (buffer ++ text)
    { cleaned := [], toolCalls := [], buffer := [] }

/-! ## Text without markers -/

theorem dropWhile_append_of_ne_nil {p : Char → Bool} {l : List Char} (h : l.dropWhile p ≠ [])
    (z : List Char) : (l ++ z).dropWhile p = l.dropWhile p ++ z := by
  rw [dropWhile_append, if_neg (by simpa using h)]

theorem takeWhile_append_of_dropWhile_ne_nil {p : Char → Bool} {l : List Char}
    (h : l.dropWhile p ≠ []) (z : List Char) : (l ++ z).takeWhile p = l.takeWhile p := by
  rw [takeWhile_append, if_neg]
  intro hlen
  have htotal := congrArg List.length (takeWhile_append_dropWhile (p := p) (l := l))
  rw [length_append, hlen] at htotal
  exact h (length_eq_zero_iff.1 (by omega))

variable {rest text : List Char}

theorem afterLiteral_append {literal : List Char} (h : afterLiteral literal text = some rest)
    (z : List Char) : afterLiteral literal (text ++ z) = some (rest ++ z) := by
  unfold afterLiteral at h ⊢
  by_cases hp : literal.isPrefixOf text = true
  · rw [if_pos hp] at h
    cases h
    obtain ⟨t, rfl⟩ := isPrefixOf_iff_prefix.1 hp
    rw [if_pos ( isPrefixOf_iff_prefix.2 ⟨t ++ z, (append_assoc _ _ _).symm⟩),
      append_assoc, drop_left, drop_left]
  · rw [if_neg hp] at h
    cases h

theorem ne_nil_of_afterLiteral {c : Char} {literal : List Char}
    (h : afterLiteral (c :: literal) text = some rest) : text ≠ [] := by
  rintro rfl
  cases h

theorem afterSpaces_append (h : afterSpaces text = some rest) (hrest : rest ≠ []) (z : List Char) :
    afterSpaces (text ++ z) = some (rest ++ z) := by
  unfold afterSpaces at h ⊢
  by_cases hs : (text.takeWhile isJsSpace).isEmpty = true
  · rw [if_pos hs] at h
    cases h
  · rw [if_neg hs] at h
    cases h
    rw [takeWhile_append_of_dropWhile_ne_nil hrest, if_neg hs, dropWhile_append_of_ne_nil hrest]

theorem quoted_append {name : List Char} (h : quoted text = some (name, rest)) (z : List Char) :
    quoted (text ++ z) = some (name, rest ++ z) := by
  unfold quoted at h ⊢
  cases hd : text.dropWhile fun c => c ≠ '"' with
  | nil =>
    rw [hd] at h
    cases h
  | cons c tail =>
    have hne : (text.dropWhile fun c => c ≠ '"') ≠ [] := by rw [hd]; exact cons_ne_nil _ _
    rw [hd] at h
    cases h
    rw [dropWhile_append_of_ne_nil hne, hd, takeWhile_append_of_dropWhile_ne_nil hne]
    rfl

theorem nameAttribute_append {name : List Char} (h : nameAttribute text = some (name, rest))
    (z : List Char) : nameAttribute (text ++ z) = some (name, rest ++ z) := by
  obtain ⟨r₁, h₁, h⟩ := bind_eq_some_iff.1 h
  obtain ⟨r₂, h₂, h₃⟩ := bind_eq_some_iff.1 h
  refine bind_eq_some_iff.2 ⟨_, afterSpaces_append h₁ (ne_nil_of_afterLiteral h₂) z, ?_⟩
  exact bind_eq_some_iff.2 ⟨_, afterLiteral_append h₂ z, quoted_append h₃ z⟩

theorem suffix_of_afterLiteral {literal : List Char} (h : afterLiteral literal text = some rest) :
    rest <:+ text := by
  unfold afterLiteral at h
  split at h
  · cases h
    exact drop_suffix _ _
  · cases h

theorem suffix_of_afterSpaces (h : afterSpaces text = some rest) : rest <:+ text := by
  unfold afterSpaces at h
  split at h
  · cases h
  · cases h
    exact dropWhile_suffix _

theorem suffix_of_quoted {name : List Char} (h : quoted text = some (name, rest)) :
    rest <:+ text := by
  unfold quoted at h
  split at h
  · cases h
  · next c tail htail =>
    obtain ⟨-, rfl⟩ := Prod.mk.inj (some.inj h)
    have hsuffix := dropWhile_suffix (l := text) fun c => decide (c ≠ '"')
    rw [htail] at hsuffix
    exact (suffix_cons _ _).trans hsuffix

theorem suffix_of_nameAttribute {name : List Char} (h : nameAttribute text = some (name, rest)) :
    rest <:+ text := by
  obtain ⟨r₁, h₁, h⟩ := bind_eq_some_iff.1 h
  obtain ⟨r₂, h₂, h₃⟩ := bind_eq_some_iff.1 h
  exact (suffix_of_quoted h₃).trans ((suffix_of_afterLiteral h₂).trans (suffix_of_afterSpaces h₁))

variable {m : Marker}

/-- An invoke marker stays the same whatever follows. -/
theorem invokeAt_append (h : invokeAt text = some m) (z : List Char) :
    ∃ name after, m = .invoke name after ∧ after <:+ text ∧
      invokeAt (text ++ z) = some (.invoke name (after ++ z)) := by
  obtain ⟨r₁, h₁, h⟩ := bind_eq_some_iff.1 h
  obtain ⟨⟨name, r₂⟩, h₂, h⟩ := bind_eq_some_iff.1 h
  obtain ⟨r₃, h₃, rfl⟩ := map_eq_some_iff.1 h
  refine ⟨name, r₃, rfl, ?_, ?_⟩
  · exact (suffix_of_afterLiteral h₃).trans ((dropWhile_suffix _).trans
      ((suffix_of_nameAttribute h₂).trans (suffix_of_afterLiteral h₁)))
  · refine bind_eq_some_iff.2 ⟨_, afterLiteral_append h₁ z, ?_⟩
    refine bind_eq_some_iff.2 ⟨_, nameAttribute_append h₂ z, ?_⟩
    refine map_eq_some_iff.2 ⟨r₃ ++ z, ?_, rfl⟩
    rw [dropWhile_append_of_ne_nil (ne_nil_of_afterLiteral h₃)]
    exact afterLiteral_append h₃ z

theorem toolCallTagAt_append (h : toolCallTagAt text = some m) (z : List Char) :
    ∃ after, m = .toolCallTag after ∧ invokeAt (text ++ z) = none ∧
      toolCallTagAt (text ++ z) = some (.toolCallTag (after ++ z)) := by
  obtain ⟨r, hr, rfl⟩ := map_eq_some_iff.1 h
  refine ⟨r, rfl, ?_, map_eq_some_iff.2 ⟨_, afterLiteral_append hr z, rfl⟩⟩
  unfold afterLiteral at hr
  split at hr
  · next hprefix =>
    obtain ⟨t, rfl⟩ := isPrefixOf_iff_prefix.1 hprefix
    rfl
  · cases hr

/-- The white space after the colon may go on. -/
theorem toolCallTextAt_append (h : toolCallTextAt text = some m) (z : List Char) :
    ∃ name after after', m = .toolCallText name after ∧ after <:+ text ∧
      invokeAt (text ++ z) = none ∧ toolCallTagAt (text ++ z) = none ∧
      toolCallTextAt (text ++ z) = some (.toolCallText name after') ∧
      (after ≠ [] → after' = after ++ z) := by
  obtain ⟨r₁, h₁, h⟩ := bind_eq_some_iff.1 h
  obtain ⟨r₂, h₂, h⟩ := bind_eq_some_iff.1 h
  by_cases hw : (r₂.takeWhile isWordChar).isEmpty = true
  · rw [if_pos hw] at h
    cases h
  rw [if_neg hw] at h
  obtain ⟨r₃, h₃, rfl⟩ := map_eq_some_iff.1 h
  have hne := ne_nil_of_afterLiteral h₃
  have hr₂ : r₂ ≠ [] := by
    rintro rfl
    exact hne rfl
  refine ⟨_, _, (r₃ ++ z).dropWhile isJsSpace, rfl, ?_, ?_, ?_, ?_, fun hafter => ?_⟩
  · exact (dropWhile_suffix _).trans ((suffix_of_afterLiteral h₃).trans
      ((dropWhile_suffix _).trans ((suffix_of_afterSpaces h₂).trans
        (suffix_of_afterLiteral h₁))))
  · unfold afterLiteral at h₁
    split at h₁
    · next hprefix =>
      obtain ⟨t, rfl⟩ := isPrefixOf_iff_prefix.1 hprefix
      rfl
    · cases h₁
  · unfold afterLiteral at h₁
    split at h₁
    · next hprefix =>
      obtain ⟨t, rfl⟩ := isPrefixOf_iff_prefix.1 hprefix
      rfl
    · cases h₁
  · refine bind_eq_some_iff.2 ⟨_, afterLiteral_append h₁ z, ?_⟩
    refine bind_eq_some_iff.2 ⟨_, afterSpaces_append h₂ hr₂ z, ?_⟩
    rw [takeWhile_append_of_dropWhile_ne_nil hne, if_neg hw, dropWhile_append_of_ne_nil hne]
    exact map_eq_some_iff.2 ⟨r₃ ++ z, afterLiteral_append h₃ z, rfl⟩
  · exact dropWhile_append_of_ne_nil hafter z

/-- A marker stays one whatever follows. -/
theorem markerAt_append (h : (markerAt text).isSome) (z : List Char) :
    (markerAt (text ++ z)).isSome := by
  unfold markerAt at h ⊢
  rw [isSome_or, isSome_or, Bool.or_eq_true, Bool.or_eq_true] at h ⊢
  rcases h with h | h | h
  · obtain ⟨m, h⟩ := isSome_iff_exists.1 h
    obtain ⟨_, _, -, -, happend⟩ := invokeAt_append h z
    exact .inl (isSome_iff_exists.2 ⟨_, happend⟩)
  · obtain ⟨m, h⟩ := isSome_iff_exists.1 h
    obtain ⟨_, -, -, happend⟩ := toolCallTagAt_append h z
    exact .inr (.inl (isSome_iff_exists.2 ⟨_, happend⟩))
  · obtain ⟨m, h⟩ := isSome_iff_exists.1 h
    obtain ⟨_, _, _, -, -, -, -, happend, -⟩ := toolCallTextAt_append h z
    exact .inr (.inr (isSome_iff_exists.2 ⟨_, happend⟩))

theorem firstMarker_eq_none :
    firstMarker text = none ↔ ∀ t, t <:+ text → t ≠ [] → markerAt t = none := by
  induction text with
  | nil =>
    refine ⟨fun _ t ht hne => absurd (suffix_nil.1 ht) hne, fun _ => rfl⟩
  | cons c text ih =>
    constructor
    · intro h t ht hne
      rw [firstMarker] at h
      cases hm : markerAt (c :: text) with
      | some m =>
        rw [hm] at h
        cases h
      | none =>
        rw [hm] at h
        rcases suffix_cons_iff.1 ht with rfl | ht
        · exact hm
        · exact ih.1 (map_eq_none_iff.1 h) t ht hne
    · intro h
      rw [firstMarker, h _ (suffix_refl _) (cons_ne_nil _ _)]
      exact map_eq_none_iff.2 (ih.2 fun t ht hne => h t (ht.trans (suffix_cons c text)) hne)

/-- A part of a text without markers has none. -/
theorem firstMarker_infix {part : List Char} (h : firstMarker text = none)
    (hpart : part <:+: text) : firstMarker part = none := by
  obtain ⟨a, z, rfl⟩ := hpart
  refine firstMarker_eq_none.2 fun t ht hne => ?_
  obtain ⟨b, rfl⟩ := ht
  have hall := firstMarker_eq_none.1 h (t ++ z) ⟨a ++ b, by simp⟩ (by simp [hne])
  by_contra hsome
  have := markerAt_append (isSome_iff_ne_none.2 hsome) z
  rw [hall] at this
  cases this

theorem extract_of_noMarker [Zero N] [DecidableEq N] (parse : String → Option (Json N)) (now : ℕ)
    {buffer : List Char} (h : firstMarker (buffer ++ text) = none) :
    extractXmlInvokeBlocks parse now text buffer =
      { cleaned := buffer ++ text, toolCalls := [], buffer := [] } := by
  rw [extractXmlInvokeBlocks, extractLoop, h]
  rfl

end OmniRoute.ClaudeStream
