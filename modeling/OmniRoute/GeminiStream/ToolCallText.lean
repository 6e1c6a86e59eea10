import OmniRoute.ClaudeStream.Markdown
import OmniRoute.Lib.JsString
import OmniRoute.Lib.Json
import OmniRoute.Lib.Leftmost

/-!
# Tool calls written as text

Some turns write a tool call as `[Tool call: name]` with the arguments on the next line.
`parseTextualToolCallCandidate` says whether a text ends in such a call, in the beginning of one or
in neither; zero-width characters are taken out first. `JSON.parse` is a parameter.

A candidate is decided by what stands from its bracket on (`parseCandidate_from`), so cutting the
text there does not change what is found.
-/

namespace OmniRoute.GeminiStream

open List Option

open ClaudeStream (isWordChar)
open Leftmost

variable {N : Type}

/-! ## Zero-width characters -/

/-- `\u200C` and `\u200D` -/
def isJoiner (c : Char) : Bool := c.toNat = 0x200C || c.toNat = 0x200D

/-- `\u200B` and `\uFEFF` -/
def isZeroWidthSpace (c : Char) : Bool := c.toNat = 0x200B || c.toNat = 0xFEFF

/-- What stands before a character: in a run of joiners, whether the run is taken out. -/
inductive Before
  | start
  | word
  | other
  | joiners (dropped : Bool)

/-- Whether a run of joiners goes, by what stands before it and the text behind it: it stands
between two word characters, or between one and an edge of the text. -/
def dropsJoiners : Before → List Char → Bool
  | .start, c :: _ => isWordChar c
  | .word, [] => true
  | .word, c :: _ => isWordChar c
  | .joiners dropped, _ => dropped
  | _, _ => false

def beforeNext (c : Char) : Before := if isWordChar c then .word else .other

/-- `replace(JOINER_BETWEEN_ASCII_WORD_CHARS, "")` -/
def stripJoiners : Before → List Char → List Char
  | _, [] => []
  | before, c :: text =>
    if isJoiner c then
      let dropped := dropsJoiners before (text.dropWhile isJoiner)
      if dropped then stripJoiners (.joiners dropped) text
      else c :: stripJoiners (.joiners dropped) text
    else c :: stripJoiners (beforeNext c) text

def stripObfuscationZeroWidth (text : List Char) : List Char :=
  stripJoiners .start (text.filter fun c => !isZeroWidthSpace c)

mutual

/-- All strings of a value without zero-width characters; the names of fields stay. -/
def stripZeroWidth : Json N → Json N
  | .str s => .str (String.ofList (stripObfuscationZeroWidth s.toList))
  | .arr items => .arr (stripItems items)
  | .obj fields => .obj (stripFields fields)
  | value => value

def stripItems : List (Json N) → List (Json N)
  | [] => []
  | value :: items => stripZeroWidth value :: stripItems items

def stripFields : List (String × Json N) → List (String × Json N)
  | [] => []
  | (key, value) :: fields => (key, stripZeroWidth value) :: stripFields fields

end

/-! ## Candidates -/

def toolCallMarker : List Char := ['[', 'T', 'o', 'o', 'l', ' ', 'c', 'a', 'l', 'l', ':']

def emptyToolCallMarker : List Char := ['(', 'e', 'm', 'p', 't', 'y', ')'] ++ toolCallMarker

def argumentsWord : List Char := ['A', 'r', 'g', 'u', 'm', 'e', 'n', 't', 's', ':']

/-- The text before the last occurrence of a literal and the text from it on. -/
def splitAtLast (literal : List Char) : List Char → Option (List Char × List Char) :=
  lastMatch literal.isPrefixOf

def trimChars (text : List Char) : List Char := (jsTrim (String.ofList text)).toList

/-- Whether what stands from a marker on can be a call or its beginning. -/
def isValidToolCallHeaderPrefix (candidate : List Char) : Bool :=
  if !toolCallMarker.isPrefixOf candidate then false
  else
    let rest := candidate.drop toolCallMarker.length
    if !rest.contains ']' then !rest.contains '\n' && !rest.contains '['
    else
      let namePart := rest.takeWhile fun c => c ≠ ']'
      if namePart.contains '\n' || (trimChars namePart).isEmpty then false
      else
        let afterBracket := (rest.dropWhile fun c => c ≠ ']').drop 1
        let textAfterWhitespace := afterBracket.dropWhile isJsSpace
        if textAfterWhitespace.isEmpty then true
        else if !(afterBracket.takeWhile isJsSpace).contains '\n' then false
        else textAfterWhitespace.isPrefixOf argumentsWord ||
          argumentsWord.isPrefixOf textAfterWhitespace

/-- `/^\[Tool call:\s*([^\]\n]+)\]\s*\nArguments:\s*/`: the name and the text behind the header. A
name of white space only is no name to the caller, so it counts as no match. -/
def toolCallHeader (candidate : List Char) : Option (List Char × List Char) :=
  let rest := (candidate.drop toolCallMarker.length).dropWhile isJsSpace
  let name := rest.takeWhile fun c => c ≠ ']' && c ≠ '\n'
  match rest.dropWhile fun c => c ≠ ']' && c ≠ '\n' with
  | ']' :: afterBracket =>
    let spaces := afterBracket.takeWhile isJsSpace
    let afterSpaces := afterBracket.dropWhile isJsSpace
    if name.isEmpty || spaces.getLast? != some '\n' || !argumentsWord.isPrefixOf afterSpaces then
      none
    else some (name, (afterSpaces.drop argumentsWord.length).dropWhile isJsSpace)
  | _ => none

inductive Candidate (N : Type)
  | complete (name : List Char) (args : Json N)
  | partialCall

/-- The arguments as JSON, or as JSON inside a JSON string. -/
def decodeArgs (parse : List Char → Option (Json N)) (rawArgs : List Char) : Option (Json N) :=
  (parse rawArgs).or <|
    if rawArgs.head? = some '"' ∧ rawArgs.getLast? = some '"' then
      (parse rawArgs).bind fun decoded =>
        match decoded with
        | .str s => parse s.toList
        | _ => parse rawArgs
    else parse rawArgs

/-- What stands from the last marker on. -/
def parseFromMarker (parse : List Char → Option (Json N)) (candidate : List Char) :
    Option (Candidate N) :=
  if !isValidToolCallHeaderPrefix candidate then none
  else
    match toolCallHeader candidate with
    | none => some .partialCall
    | some (rawName, behind) =>
      let name := trimChars rawName
      let rawArgs := trimChars behind
      if name = [] ∨ rawArgs = [] then some .partialCall
      else
        match decodeArgs parse rawArgs with
        | some args => some (.complete name (stripZeroWidth args))
        | none => some .partialCall

/-- Whether a text without a marker ends in the beginning of one. -/
def endsInMarker (normalized : List Char) : Option (List Char × List Char) :=
  ((splitAtLast ['('] normalized).filter fun r => r.2.isPrefixOf emptyToolCallMarker).or
    ((splitAtLast ['['] normalized).filter fun r => r.2.isPrefixOf toolCallMarker)

/-- The candidate of a text without zero-width characters. -/
def parseNormalized (parse : List Char → Option (Json N)) (normalized : List Char) :
    Option (Candidate N) :=
  match splitAtLast toolCallMarker normalized with
  | none => (endsInMarker normalized).map fun _ => .partialCall
  | some (_, candidate) => parseFromMarker parse candidate

def parseTextualToolCallCandidate (parse : List Char → Option (Json N)) (text : List Char) :
    Option (Candidate N) :=
  parseNormalized parse (stripObfuscationZeroWidth text)

def includes (literal text : List Char) : Bool := (splitAtLast literal text).isSome

def containsTextualToolCallMarker (text : List Char) : Bool :=
  let normalized := stripObfuscationZeroWidth text
  if !includes toolCallMarker normalized then false
  else if includes argumentsWord normalized then true
  else toolCallMarker.isPrefixOf (trimChars normalized) ||
    emptyToolCallMarker.isPrefixOf (trimChars normalized)

/-- Where a candidate begins: at its marker, with the word before it, or at the beginning of a
marker at the end of the text. -/
def toolCallStart (text : List Char) : Option (List Char × List Char) :=
  (splitAtLast emptyToolCallMarker text).or
    ((splitAtLast toolCallMarker text).or (endsInMarker text))

/-! ## From the beginning of a candidate on -/

theorem splitAtLast_ne_none {literal text : List Char} (h : literal.isPrefixOf text = true) :
    splitAtLast literal text ≠ none := by
  intro hnone
  cases text with
  | nil =>
    rw [splitAtLast, lastMatch, if_pos h] at hnone
    cases hnone
  | cons c text =>
    rw [splitAtLast, lastMatch] at hnone
    cases hl : lastMatch literal.isPrefixOf text with
    | some found =>
      rw [hl] at hnone
      cases hnone
    | none =>
      rw [hl] at hnone
      dsimp only at hnone
      rw [if_pos h] at hnone
      cases hnone

variable {text left rest : List Char}

theorem endsInMarker_from (h : endsInMarker text = some (left, rest)) :
    text = left ++ rest ∧ (['('].isPrefixOf rest ∨ ['['].isPrefixOf rest) ∧
      (endsInMarker rest).isSome := by
  rcases or_eq_some_iff.1 h with h | ⟨-, h⟩
  · obtain ⟨hsplit, hprefix⟩ := filter_eq_some_iff.1 h
    obtain ⟨heq, hp, hlast⟩ := lastMatch_eq_some hsplit
    refine ⟨heq, .inl hp, ?_⟩
    rw [endsInMarker, splitAtLast, hlast, filter_some, if_pos hprefix]
    rfl
  · obtain ⟨hsplit, hprefix⟩ := filter_eq_some_iff.1 h
    obtain ⟨heq, hp, hlast⟩ := lastMatch_eq_some hsplit
    refine ⟨heq, .inr hp, ?_⟩
    have hbracket : (splitAtLast ['['] rest).filter (fun r => r.2.isPrefixOf toolCallMarker) =
        some ([], rest) := by
      rw [splitAtLast, hlast, filter_some, if_pos hprefix]
    rw [endsInMarker, hbracket, isSome_or, isSome_some, Bool.or_true]

/-- A candidate is decided by the text from its beginning on. -/
theorem parseNormalized_from (parse : List Char → Option (Json N))
    (h : toolCallStart text = some (left, rest)) :
    text = left ++ rest ∧ (['('].isPrefixOf rest ∨ ['['].isPrefixOf rest) ∧
      parseNormalized parse rest = parseNormalized parse text := by
  rcases or_eq_some_iff.1 h with h | ⟨-, h⟩
  · obtain ⟨heq, hp, -⟩ := lastMatch_eq_some h
    obtain ⟨z, rfl⟩ := isPrefixOf_iff_prefix.1 hp
    refine ⟨heq, .inl rfl, ?_⟩
    -- the marker stands behind the word, so the last marker of the text is in the rest
    have hmarker : toolCallMarker.isPrefixOf (toolCallMarker ++ z) = true :=
      isPrefixOf_iff_prefix.2 (List.prefix_append _ _)
    obtain ⟨⟨b, f⟩, hsome⟩ := ne_none_iff_exists'.1 (splitAtLast_ne_none hmarker)
    have hrest : splitAtLast toolCallMarker (emptyToolCallMarker ++ z) =
        some (['(', 'e', 'm', 'p', 't', 'y', ')'] ++ b, f) := by
      rw [emptyToolCallMarker, append_assoc]
      exact lastMatch_append hsome _
    have htext : splitAtLast toolCallMarker text =
        some (left ++ (['(', 'e', 'm', 'p', 't', 'y', ')'] ++ b), f) := by
      rw [heq]
      exact lastMatch_append hrest left
    rw [parseNormalized, parseNormalized, hrest, htext]
  rcases or_eq_some_iff.1 h with h | ⟨hnone, h⟩
  · obtain ⟨heq, hp, hlast⟩ := lastMatch_eq_some h
    refine ⟨heq, .inr ?_, ?_⟩
    · obtain ⟨z, rfl⟩ := isPrefixOf_iff_prefix.1 hp
      rfl
    · rw [parseNormalized, parseNormalized, h, splitAtLast, hlast]
  · obtain ⟨heq, hp, hsome⟩ := endsInMarker_from h
    refine ⟨heq, hp, ?_⟩
    have hrest : splitAtLast toolCallMarker rest = none := by
      rw [heq] at hnone
      exact lastMatch_suffix_none hnone
    obtain ⟨found, hfound⟩ := isSome_iff_exists.1 hsome
    rw [parseNormalized, parseNormalized, hnone, hrest, h, hfound]
    rfl

/-! ## Text without zero-width characters -/

theorem length_stripJoiners (before : Before) (text : List Char) :
    (stripJoiners before text).length ≤ text.length := by
  induction text generalizing before with
  | nil => exact Nat.le_refl _
  | cons c text ih =>
    rw [stripJoiners]
    split
    · dsimp only
      split
      · exact Nat.le_succ_of_le (ih _)
      · exact Nat.succ_le_succ (ih _)
    · exact Nat.succ_le_succ (ih _)

/-- Behind a character that is no joiner nothing depends on what stands before it. -/
theorem stripJoiners_append {c : Char} (hc : isJoiner c = false) (before : Before)
    (a text : List Char) : ∃ x, x.length ≤ a.length ∧
      stripJoiners before (a ++ c :: text) = x ++ c :: stripJoiners (beforeNext c) text := by
  induction a generalizing before with
  | nil =>
    refine ⟨[], Nat.le_refl _, ?_⟩
    rw [List.nil_append, stripJoiners, if_neg (by rw [hc]; decide)]
    rfl
  | cons d a ih =>
    rw [cons_append, stripJoiners]
    split
    · dsimp only
      split
      · obtain ⟨x, hlen, heq⟩ := ih (.joiners (dropsJoiners before
          ((a ++ c :: text).dropWhile isJoiner)))
        exact ⟨x, Nat.le_succ_of_le hlen, heq⟩
      · obtain ⟨x, hlen, heq⟩ := ih (.joiners (dropsJoiners before
          ((a ++ c :: text).dropWhile isJoiner)))
        exact ⟨d :: x, Nat.succ_le_succ hlen, by rw [heq]; rfl⟩
    · obtain ⟨x, hlen, heq⟩ := ih (beforeNext d)
      exact ⟨d :: x, Nat.succ_le_succ hlen, by rw [heq]; rfl⟩

/-- If nothing is taken out of a text, nothing is taken out of its end from a bracket on. -/
theorem strip_suffix {c : Char} (hc : isJoiner c = false) {a text : List Char}
    (h : stripObfuscationZeroWidth (a ++ c :: text) = a ++ c :: text) :
    stripObfuscationZeroWidth (c :: text) = c :: text := by
  unfold stripObfuscationZeroWidth at h ⊢
  have hfilter : (a ++ c :: text).filter (fun d => !isZeroWidthSpace d) = a ++ c :: text := by
    refine filter_sublist.eq_of_length_le ?_
    have hlen := length_stripJoiners .start
      ((a ++ c :: text).filter fun d => !isZeroWidthSpace d)
    rw [h] at hlen
    exact hlen
  have hend : (c :: text).filter (fun d => !isZeroWidthSpace d) = c :: text :=
    filter_eq_self.2 fun d hd =>
      filter_eq_self.1 hfilter d (mem_append_right a hd)
  rw [hfilter] at h
  rw [hend]
  obtain ⟨x, hlen, heq⟩ := stripJoiners_append hc .start a text
  rw [heq] at h
  have hstart : stripJoiners .start (c :: text) = c :: stripJoiners (beforeNext c) text := by
    rw [stripJoiners, if_neg (by rw [hc]; decide)]
  rw [hstart]
  have hshort := length_stripJoiners (beforeNext c) text
  have htotal := congrArg List.length h
  simp only [length_append, length_cons] at htotal
  exact (append_inj h (by omega)).2

/-- A candidate in a text from which nothing is taken out stays one when the text is cut where it
begins. -/
theorem parseCandidate_from (parse : List Char → Option (Json N))
    (hstrip : stripObfuscationZeroWidth text = text) (h : toolCallStart text = some (left, rest)) :
    text = left ++ rest ∧ parseTextualToolCallCandidate parse rest =
      parseTextualToolCallCandidate parse text := by
  obtain ⟨rfl, hbracket, hparse⟩ := parseNormalized_from parse h
  refine ⟨rfl, ?_⟩
  have hrest : stripObfuscationZeroWidth rest = rest := by
    rcases hbracket with hbracket | hbracket
    · obtain ⟨z, rfl⟩ := isPrefixOf_iff_prefix.1 hbracket
      exact strip_suffix (by decide) hstrip
    · obtain ⟨z, rfl⟩ := isPrefixOf_iff_prefix.1 hbracket
      exact strip_suffix (by decide) hstrip
  rw [parseTextualToolCallCandidate, parseTextualToolCallCandidate, hrest, hstrip, hparse]

end OmniRoute.GeminiStream
