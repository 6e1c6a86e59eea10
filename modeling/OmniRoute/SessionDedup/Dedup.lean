import OmniRoute.Lib.OrdMap

/-!
# The session dedup engine

Blocks of lines that a conversation repeats are replaced by markers with the hash of the block.
The texts that count are the slots: the contents of messages that are strings, and the text parts
of the others. With several slots, the longest block at the end of a slot that an earlier slot
has at its end too is replaced, once. A single slot is deduplicated within itself.

A text is a list of UTF-16 units. `Marked` tells of every unit whether it belongs to a marker
that was put in, which the string itself does not say. The hash is any injective function whose
values have no bracket.
-/

namespace OmniRoute.SessionDedup

/-- A string: its UTF-16 units. -/
abbrev Text := List UInt16

/-- The units of an ASCII string. -/
def units (s : String) : Text := s.toList.map fun c => c.toNat.toUInt16

def newline : UInt16 := 10
def bracket : UInt16 := 93

def minBlockLines : ℕ := 3
def maxSuffixStarts : ℕ := 2000
def maxTotalBlockBytes : ℕ := 8 * 1024 * 1024

structure Env where
  /-- The first hex digits of a digest. -/
  hashBlock : Text → Text
  hash_inj : ∀ b c, hashBlock b = hashBlock c → b = c
  hash_no_bracket : ∀ b, bracket ∉ hashBlock b

/-! ## Blocks -/

def splitLines (text : Text) : List Text := text.splitOn newline

def joinLines (lines : List Text) : Text := [newline].intercalate lines

instance lawfulBEqText : LawfulBEq Text := inferInstance

/-- The loop of `findSuffixBlocks` over the starts that are left. -/
def suffixBlocksFrom (minBlockChars : ℚ) : ℕ → List Text → List Text → ℕ → List Text
  | 0, _, _, _ => []
  | _ + 1, [], _, _ => []
  | starts + 1, line :: lines, seen, totalBlockBytes =>
    let block := joinLines (line :: lines)
    if minBlockLines ≤ lines.length + 1 ∧ minBlockChars ≤ (block.length : ℚ) ∧ block ∉ seen then
      if totalBlockBytes + block.length ≥ maxTotalBlockBytes then [block]
      else block :: suffixBlocksFrom minBlockChars starts lines (block :: seen)
        (totalBlockBytes + block.length)
    else suffixBlocksFrom minBlockChars starts lines seen totalBlockBytes

def findSuffixBlocks (minBlockChars : ℚ) (text : Text) : List Text :=
  suffixBlocksFrom minBlockChars maxSuffixStarts (splitLines text) [] 0

/-! ## Marked texts -/

/-- A text, and for each unit whether it belongs to a marker that was put in. -/
abbrev Marked := List (UInt16 × Bool)

def Marked.text (cells : Marked) : Text := cells.map Prod.fst

def plain (text : Text) : Marked := text.map fun unit => (unit, false)

variable (env : Env)

/-- `[dedup:ref sha=<hash>]` -/
def marker (block : Text) : Text := units "[dedup:ref sha=" ++ env.hashBlock block ++ [bracket]

def inserted (block : Text) : Marked := (marker env block).map fun unit => (unit, true)

/-- What becomes of a slot, and how many units of markers were put in. -/
structure Output where
  marked : Marked
  insertedUnits : ℕ

def Output.text (out : Output) : Text := out.marked.text

def untouched (text : Text) : Output := ⟨plain text, 0⟩

/-! ## Within one slot -/

/-- How often a block occurs, from left to right without overlaps. -/
def occurrences (block : Text) : ℕ → Text → ℕ
  | 0, _ => 0
  | fuel + 1, text =>
    if block.isPrefixOf text then occurrences block fuel (text.drop block.length) + 1
    else
      match text with
      | [] => 0
      | _ :: text => occurrences block fuel text

/-- Replace every occurrence of a block. -/
def replaceAll (block : Text) : ℕ → Marked → Output
  | 0, cells => ⟨cells, 0⟩
  | fuel + 1, cells =>
    if block.isPrefixOf cells.text then
      let rest := replaceAll block fuel (cells.drop block.length)
      ⟨inserted env block ++ rest.marked, (marker env block).length + rest.insertedUnits⟩
    else
      match cells with
      | [] => ⟨[], 0⟩
      | cell :: cells =>
        let rest := replaceAll block fuel cells
        ⟨cell :: rest.marked, rest.insertedUnits⟩

/-- Replace every occurrence of a block but the first. -/
def replaceLater (block : Text) : ℕ → Marked → Output
  | 0, cells => ⟨cells, 0⟩
  | fuel + 1, cells =>
    if block.isPrefixOf cells.text then
      let rest := replaceAll env block fuel (cells.drop block.length)
      ⟨cells.take block.length ++ rest.marked, rest.insertedUnits⟩
    else
      match cells with
      | [] => ⟨[], 0⟩
      | cell :: cells =>
        let rest := replaceLater block fuel cells
        ⟨cell :: rest.marked, rest.insertedUnits⟩

/-- One round of the loop of `dedupeWithinMessage`. -/
def dedupRound (out : Output) (block : Text) : Output :=
  if occurrences block out.marked.length out.text < 2 then out
  else
    let replaced := replaceLater env block out.marked.length out.marked
    ⟨replaced.marked, out.insertedUnits + replaced.insertedUnits⟩

/-- More frequent blocks first, then longer ones. -/
def sortedBlocks (blocks : List Text) : List Text :=
  blocks.mergeSort fun a b => decide (blocks.count b < blocks.count a ∨
    blocks.count a = blocks.count b ∧ b.length ≤ a.length)

def dedupeWithinMessage (minBlockChars : ℚ) (text : Text) : Output :=
  let blocks := findSuffixBlocks minBlockChars text
  if blocks.length < 2 then untouched text
  else (sortedBlocks blocks).foldl (dedupRound env) (untouched text)

/-! ## Across slots -/

/-- A text of the conversation and its key, `msgIdx`. -/
structure Slot where
  key : ℕ
  text : Text

/-- A block goes to the first slot that has it. -/
def recordBlock (key : ℕ) (firstSeen : OrdMap Text (ℕ × Text)) (block : Text) :
    OrdMap Text (ℕ × Text) :=
  match firstSeen.get (env.hashBlock block) with
  | some _ => firstSeen
  | none => firstSeen.set (env.hashBlock block) (key, block)

/-- The first pass. -/
def firstSeenOf (minBlockChars : ℚ) (slots : List Slot) : OrdMap Text (ℕ × Text) :=
  slots.foldl (fun firstSeen slot =>
    (findSuffixBlocks minBlockChars slot.text).foldl (recordBlock env slot.key) firstSeen) .empty

/-- What comes before and after the first occurrence of a block. -/
def splitFirst (block : Text) : Text → Option (Text × Text)
  | [] => if block = [] then some ([], []) else none
  | unit :: text =>
    if block.isPrefixOf (unit :: text) then some ([], (unit :: text).drop block.length)
    else (splitFirst block text).map fun p => (unit :: p.1, p.2)

/-- Whether a slot with an earlier key has the block. -/
def ownedEarlier (firstSeen : OrdMap Text (ℕ × Text)) (key : ℕ) (block : Text) : Bool :=
  match firstSeen.get (env.hashBlock block) with
  | some owner => decide (owner.1 < key ∧ owner.2 = block)
  | none => false

/-- The second pass at one slot: the longest block that occurs is replaced, and that ends it. -/
def rewriteSlot (minBlockChars : ℚ) (firstSeen : OrdMap Text (ℕ × Text)) (slot : Slot) :
    Option Output :=
  let dupBlocks := (findSuffixBlocks minBlockChars slot.text).filter
    (ownedEarlier env firstSeen slot.key)
  (dupBlocks.mergeSort fun a b => decide (b.length ≤ a.length)).findSome? fun block =>
    (splitFirst block slot.text).map fun p =>
      ⟨plain p.1 ++ inserted env block ++ plain p.2, (marker env block).length⟩

def dedupMessageTexts (minBlockChars : ℚ) (slots : List Slot) : OrdMap ℕ Output :=
  match slots with
  | [slot] =>
    let out := dedupeWithinMessage env minBlockChars slot.text
    if out.insertedUnits = 0 then .empty else OrdMap.empty.set slot.key out
  | _ => slots.foldl (fun deduped slot =>
      match rewriteSlot env minBlockChars (firstSeenOf env minBlockChars slots) slot with
      | some out => deduped.set slot.key out
      | none => deduped) .empty

/-! ## Messages -/

variable {O : Type}

/-- A part of a message; `rest` is what else it has. -/
inductive Part (O : Type)
  | text (text : Text) (rest : O)
  | other (part : O)

inductive Content (O : Type)
  | string (text : Text)
  | parts (parts : List (Part O))
  | other (content : O)

structure Message (O : Type) where
  isSystem : Bool
  content : Content O
  rest : O

def partKey (i p : ℕ) : ℕ := i * 100000 + p + 1

def partSlots (i : ℕ) : ℕ → List (Part O) → List Slot
  | _, [] => []
  | p, .text text _ :: parts => ⟨partKey i p, text⟩ :: partSlots i (p + 1) parts
  | p, .other _ :: parts => partSlots i (p + 1) parts

def messageSlots (i : ℕ) (msg : Message O) : List Slot :=
  if msg.isSystem then []
  else
    match msg.content with
    | .string text => [⟨i, text⟩]
    | .parts parts => partSlots i 0 parts
    | .other _ => []

def slotsFrom : ℕ → List (Message O) → List Slot
  | _, [] => []
  | i, msg :: messages => messageSlots i msg ++ slotsFrom (i + 1) messages

/-- `deduped.get(key)`, or the text as it is. -/
def outputOf (deduped : OrdMap ℕ Output) (slot : Slot) : Output :=
  (deduped.get slot.key).getD (untouched slot.text)

def rewriteParts (deduped : OrdMap ℕ Output) (i : ℕ) : ℕ → List (Part O) → List (Part O)
  | _, [] => []
  | p, .text text rest :: parts =>
    .text (outputOf deduped ⟨partKey i p, text⟩).text rest :: rewriteParts deduped i (p + 1) parts
  | p, .other part :: parts => .other part :: rewriteParts deduped i (p + 1) parts

def rewriteMessage (deduped : OrdMap ℕ Output) (i : ℕ) (msg : Message O) : Message O :=
  if msg.isSystem then msg
  else
    match msg.content with
    | .string text => { msg with content := .string (outputOf deduped ⟨i, text⟩).text }
    | .parts parts => { msg with content := .parts (rewriteParts deduped i 0 parts) }
    | .other _ => msg

def rewriteFrom (deduped : OrdMap ℕ Output) : ℕ → List (Message O) → List (Message O)
  | _, [] => []
  | i, msg :: messages => rewriteMessage deduped i msg :: rewriteFrom deduped (i + 1) messages

def dedupedOf (minBlockChars : ℚ) (messages : List (Message O)) : OrdMap ℕ Output :=
  dedupMessageTexts env minBlockChars (slotsFrom 0 messages)

def processMessages (minBlockChars : ℚ) (messages : List (Message O)) : List (Message O) :=
  rewriteFrom (dedupedOf env minBlockChars messages) 0 messages

end OmniRoute.SessionDedup
