import OmniRoute.GeminiStream.ToolCallText
import OmniRoute.Lib.Emitter

/-!
# Reasoning in tags

A Gemini model may write its reasoning into the text, in a `<think>`, `<thinking>`, `<thought>` or
`<internal_thought>` element. `consumeTextualReasoningTags` sends the body of such an element as
reasoning and the text before it as content, and returns the rest of a part; a tag that is cut at
the end of a part waits in one buffer, the body of an open element in another.
-/

namespace OmniRoute.GeminiStream

open Leftmost

variable {N : Type}

/-! ## Tags -/

def reasoningTagNames : List (List Char) :=
  [['t', 'h', 'i', 'n', 'k'], ['t', 'h', 'i', 'n', 'k', 'i', 'n', 'g'],
    ['t', 'h', 'o', 'u', 'g', 'h', 't'],
    ['i', 'n', 't', 'e', 'r', 'n', 'a', 'l', '_', 't', 'h', 'o', 'u', 'g', 'h', 't']]

def reasoningTagOpenPrefixes : List (List Char) := reasoningTagNames.map fun name => '<' :: name

/-- The rest after an ASCII literal that is compared without case. -/
def afterFolded : List Char → List Char → Option (List Char)
  | [], text => some text
  | _ :: _, [] => none
  | c :: literal, d :: text => if c.toLower = d.toLower then afterFolded literal text else none

def afterLastNewline : List Char → Option (List Char)
  | [] => none
  | c :: text => (afterLastNewline text).or (if c = '\n' then some text else none)

/-- `(?=\s|>|\r?\n)(?:\s[^>]*)?(?:>|\r?\n)`: the attributes go on to the first `>` or, if there is
none, to the last line break. -/
def tagEnd : List Char → Option (List Char)
  | [] => none
  | c :: text =>
    if c = '>' then some text
    else if isJsSpace c then
      match (c :: text).dropWhile fun d => d ≠ '>' with
      | _ :: rest => some rest
      | [] => afterLastNewline (c :: text)
    else none

/-- `REASONING_TAG_OPEN_REGEX` at the beginning of a text: the name and the rest. No name goes on
with white space, so at most one of them is followed by the end of a tag. -/
def reasoningTagAt : List Char → Option (List Char × List Char)
  | '<' :: text => reasoningTagNames.findSome? fun name =>
      (afterFolded name text).bind fun rest =>
        (tagEnd rest).map fun rest => (text.take name.length, rest)
  | _ => none

def closeTag (tagName : List Char) : List Char := ['<', '/'] ++ tagName ++ ['>']

/-- `getReasoningCloseTagRegex` at the beginning of a text. -/
def closeTagAt (tagName : List Char) : List Char → Option (List Char) :=
  afterFolded (closeTag tagName)

/-- `/^(?:\s|§\d+§)*$/`, inside a section mark with or without a digit. -/
def ignorableFrom : Option Bool → List Char → Bool
  | none, [] => true
  | some _, [] => false
  | none, c :: text =>
    if isJsSpace c then ignorableFrom none text else c = '§' && ignorableFrom (some false) text
  | some digits, c :: text =>
    if c.isDigit then ignorableFrom (some true) text
    else c = '§' && digits && ignorableFrom none text

def isIgnorableReasoningTagPrefix (value : List Char) : Bool := ignorableFrom none value

/-- `toLowerCase`, as far as the comparison with an ASCII text can tell: besides the capital
letters two characters have an ASCII letter in their lower case. -/
def toLowerCase (text : List Char) : List Char :=
  text.flatMap fun c =>
    if c.toNat = 0x212A then ['k'] else if c.toNat = 0x130 then ['i', '\u0307'] else [c.toLower]

/-- The end of a text could become one of some texts. -/
def couldBecome (texts : List (List Char)) (suffix : List Char) : Bool :=
  let suffix := toLowerCase suffix
  !suffix.contains '>' && !suffix.contains '\n' && !suffix.contains '\r' &&
    texts.any suffix.isPrefixOf

/-- A text in front of the beginning of a tag at its end, and that beginning:
`getTrailingReasoningTagPrefixStart`. -/
def trailingReasoningTagPrefix (text : List Char) : Option (List Char × List Char) :=
  (splitAtLast ['<'] text).filter fun r => couldBecome reasoningTagOpenPrefixes r.2

/-- `getTrailingReasoningCloseTagPrefixStart` -/
def trailingReasoningCloseTagPrefix (tagName text : List Char) :
    Option (List Char × List Char) :=
  (splitAtLast ['<', '/'] text).filter fun r => couldBecome [toLowerCase (closeTag tagName)] r.2

/-! ## The state -/

/-- The fields of a delta that carry text. -/
inductive Field
  | content
  | reasoningContent
  deriving DecidableEq

inductive Delta (N : Type)
  | text (field : Field) (text : List Char)
  | toolCall (index : ℕ) (name : List Char) (args : Json N)
  | finish (finishReason : String)

structure State where
  /-- A tag that is cut at the end of a part. -/
  textualReasoningTagBuffer : List Char := []
  activeTextualReasoningTag : Option (List Char) := none
  /-- The body of the open element. -/
  textualReasoningContentBuffer : List Char := []
  textualToolCallBuffer : List Char := []
  hasEmittedContent : Bool := false
  functionIndex : ℕ := 0
  deriving DecidableEq

abbrev Stream (N : Type) := Emitter State (Delta N)

def emitTextDelta (field : Field) (content : List Char) : Stream N := fun s =>
  if content = [] then ([], s)
  else ([.text field content],
    { s with hasEmittedContent := s.hasEmittedContent || field = .content })

/-! ## One part -/

structure Consumed (N : Type) where
  deltas : List (Delta N)
  state : State
  /-- The text that is returned. -/
  text : List Char

def Consumed.after (deltas : List (Delta N)) (r : Consumed N) : Consumed N :=
  { r with deltas := deltas ++ r.deltas }

/-- A text that ends inside the element. -/
def bufferReasoning (tagName buffered : List Char) (s : State) : Consumed N :=
  match trailingReasoningCloseTagPrefix tagName buffered with
  | some (body, held) =>
    { deltas := []
      state := { s with textualReasoningContentBuffer := body, textualReasoningTagBuffer := held }
      text := [] }
  | none =>
    { deltas := [], state := { s with textualReasoningContentBuffer := buffered }, text := [] }

/-- A text without a tag. -/
def returnPlain (remaining : List Char) (s : State) : Consumed N :=
  match trailingReasoningTagPrefix remaining with
  | some (before, held) =>
    { deltas := []
      state := { s with textualReasoningTagBuffer := held }
      text := if isIgnorableReasoningTagPrefix before then [] else before }
  | none => { deltas := [], state := s, text := remaining }

/-- What stands before a tag and is sent. -/
def kept (before : List Char) : List Char :=
  if isIgnorableReasoningTagPrefix before then [] else before

/-- The loop; every round takes at least a tag off the text. -/
def consumeLoop : ℕ → List Char → State → Consumed N
  | 0, _, s => { deltas := [], state := s, text := [] }
  | _ + 1, [], s => { deltas := [], state := s, text := [] }
  | rounds + 1, c :: remaining, s =>
    match s.activeTextualReasoningTag with
    | some tagName =>
      let bufferedReasoning := s.textualReasoningContentBuffer ++ c :: remaining
      match search (closeTagAt tagName) bufferedReasoning with
      | none => bufferReasoning tagName bufferedReasoning s
      | some (body, rest) =>
        let sent := emitTextDelta .reasoningContent body s
        (consumeLoop rounds rest { sent.2 with
          activeTextualReasoningTag := none, textualReasoningContentBuffer := [] }).after sent.1
    | none =>
      match search reasoningTagAt (c :: remaining) with
      | none => returnPlain (c :: remaining) s
      | some (before, tagName, afterOpen) =>
        let sent := emitTextDelta .content (kept before) s
        match search (closeTagAt tagName) afterOpen with
        | none =>
          { deltas := sent.1
            state := { sent.2 with
              activeTextualReasoningTag := some tagName
              textualReasoningContentBuffer := afterOpen }
            text := [] }
        | some (body, rest) =>
          let reasoning := emitTextDelta .reasoningContent body sent.2
          (consumeLoop rounds rest reasoning.2).after (sent.1 ++ reasoning.1)

/-- The text behind the tags that wait, which are taken out of their buffer. -/
def consumeRemaining (text : List Char) (s : State) : Consumed N :=
  let remaining := s.textualReasoningTagBuffer ++ text
  consumeLoop (s.textualReasoningContentBuffer.length + remaining.length + 1) remaining
    { s with textualReasoningTagBuffer := [] }

/-- A closing tag that waits is completed first; the text behind it is returned as it is. -/
def consumeTextualReasoningTags (text : List Char) (s : State) : Consumed N :=
  match s.activeTextualReasoningTag with
  | none => consumeRemaining text s
  | some tagName =>
    if ['<', '/'].isPrefixOf s.textualReasoningTagBuffer then
      let combinedClose := s.textualReasoningTagBuffer ++ text
      let lowerCombinedClose := toLowerCase combinedClose
      let lowerCloseTag := toLowerCase (closeTag tagName)
      if lowerCloseTag.isPrefixOf lowerCombinedClose then
        let sent := emitTextDelta .reasoningContent s.textualReasoningContentBuffer s
        { deltas := sent.1
          state := { sent.2 with
            activeTextualReasoningTag := none
            textualReasoningContentBuffer := []
            textualReasoningTagBuffer := [] }
          text := combinedClose.drop (closeTag tagName).length }
      else if lowerCombinedClose.isPrefixOf lowerCloseTag then
        { deltas := [], state := { s with textualReasoningTagBuffer := combinedClose }, text := [] }
      else consumeRemaining text s
    else consumeRemaining text s

/-- At the end what is buffered of an open element is sent. -/
def flushOpenTextualReasoning : Stream N := fun s =>
  if s.activeTextualReasoningTag = none ∧ s.textualReasoningContentBuffer = [] then ([], s)
  else
    let sent := emitTextDelta .reasoningContent s.textualReasoningContentBuffer s
    (sent.1, { sent.2 with
      activeTextualReasoningTag := none
      textualReasoningContentBuffer := []
      textualReasoningTagBuffer := [] })

end OmniRoute.GeminiStream
