import OmniRoute.SessionDedup.Within

/-!
# Session dedup can be undone

A message list is rewritten slot by slot: system messages, parts that are no text and everything
else about a message stay as they are (`skeleton_rewriteFrom`), and each slot becomes what is
found under its key (`slotsFrom_rewriteFrom`).

**Main result (`lossless_iff`).** The texts of all slots can be read back, each from its own
output and the texts before it, exactly when no two slots with different texts share the key of a
rewritten one, or, for a single slot, when no round overwrites a marker.
-/

namespace OmniRoute.SessionDedup

open List

variable {O : Type}

/-! ## What is rewritten -/

def Part.skeleton : Part O → Part O
  | .text _ rest => .text [] rest
  | .other part => .other part

/-- A message without the texts of its slots. -/
def Message.skeleton (msg : Message O) : Message O :=
  if msg.isSystem then msg
  else
    match msg.content with
    | .string _ => { msg with content := .string [] }
    | .parts parts => { msg with content := .parts (parts.map Part.skeleton) }
    | .other _ => msg

variable {deduped : OrdMap ℕ Output}

theorem skeleton_rewriteParts (i p : ℕ) (parts : List (Part O)) :
    (rewriteParts deduped i p parts).map Part.skeleton = parts.map Part.skeleton := by
  induction parts generalizing p with
  | nil => rfl
  | cons part parts ih =>
    cases part with
    | text text rest =>
      rw [rewriteParts, map_cons, map_cons, ih]
      rfl
    | other part => rw [rewriteParts, map_cons, map_cons, ih]

theorem skeleton_rewriteMessage (i : ℕ) (msg : Message O) :
    (rewriteMessage deduped i msg).skeleton = msg.skeleton := by
  obtain ⟨isSystem, content, rest⟩ := msg
  cases isSystem with
  | true => rfl
  | false =>
    cases content with
    | string text => rfl
    | parts parts => simp [rewriteMessage, Message.skeleton, skeleton_rewriteParts]
    | other content => rfl

theorem skeleton_rewriteFrom (i : ℕ) (messages : List (Message O)) :
    (rewriteFrom deduped i messages).map Message.skeleton = messages.map Message.skeleton := by
  induction messages generalizing i with
  | nil => rfl
  | cons msg messages ih =>
    rw [rewriteFrom, map_cons, map_cons, skeleton_rewriteMessage, ih]

/-- A slot with what is found under its key for its text. -/
def rewrittenSlot (deduped : OrdMap ℕ Output) (slot : Slot) : Slot :=
  ⟨slot.key, (outputOf deduped slot).text⟩

theorem partSlots_rewriteParts (i p : ℕ) (parts : List (Part O)) :
    partSlots i p (rewriteParts deduped i p parts) =
      (partSlots i p parts).map (rewrittenSlot deduped) := by
  induction parts generalizing p with
  | nil => rfl
  | cons part parts ih =>
    cases part with
    | text text rest =>
      rw [rewriteParts, partSlots, partSlots, map_cons, ih]
      rfl
    | other part => rw [rewriteParts, partSlots, partSlots, ih]

theorem messageSlots_rewriteMessage (i : ℕ) (msg : Message O) :
    messageSlots i (rewriteMessage deduped i msg) =
      (messageSlots i msg).map (rewrittenSlot deduped) := by
  obtain ⟨isSystem, content, rest⟩ := msg
  cases isSystem with
  | true => rfl
  | false =>
    cases content with
    | string text => rfl
    | parts parts => simp [rewriteMessage, messageSlots, partSlots_rewriteParts]
    | other content => rfl

theorem slotsFrom_rewriteFrom (i : ℕ) (messages : List (Message O)) :
    slotsFrom i (rewriteFrom deduped i messages) =
      (slotsFrom i messages).map (rewrittenSlot deduped) := by
  induction messages generalizing i with
  | nil => rfl
  | cons msg messages ih =>
    rw [rewriteFrom, slotsFrom, slotsFrom, map_append, messageSlots_rewriteMessage, ih]

/-! ## Reading back -/

/-- Where a marker's block is to be found. -/
def foundIn : List Slot → List Text → Text → Text → Prop
  | [_] => FoundWithin
  | _ => FoundAcross

/-- The messages keep all but the texts of their slots, each slot has its own output for a text,
and the outputs can be read back in order. -/
structure Lossless (env : Env) (minBlockChars : ℚ) (messages : List (Message O)) : Prop where
  skeleton : (processMessages env minBlockChars messages).map Message.skeleton =
    messages.map Message.skeleton
  slots : slotsFrom 0 (processMessages env minBlockChars messages) =
    (slotsFrom 0 messages).map (rewrittenSlot (dedupedOf env minBlockChars messages))
  restores : RestoresAll env (foundIn (slotsFrom 0 messages))
    (dedupedOf env minBlockChars messages) (slotsFrom 0 messages)

/-- No key of a rewritten slot is that of a slot with another text, or no round of the
deduplication of a single slot overwrites a marker. -/
def Undoable (env : Env) (minBlockChars : ℚ) : List Slot → Prop
  | [slot] => CleanWithin env minBlockChars slot.text
  | slots => NoClash env minBlockChars slots

variable {env : Env} {minBlockChars : ℚ}

theorem countP_foldl_le (env : Env) (blocks : List Text) (out : Output)
    (hle : out.marked.countP (·.2) ≤ out.insertedUnits) :
    (blocks.foldl (dedupRound env) out).marked.countP (·.2) ≤
      (blocks.foldl (dedupRound env) out).insertedUnits := by
  induction blocks generalizing out with
  | nil => exact hle
  | cons block blocks ih => exact ih _ (countP_dedupRound env out block hle).1

/-- A deduplication that puts no marker in overwrites none. -/
theorem cleanWithin_of_no_marker {text : Text}
    (h : (dedupeWithinMessage env minBlockChars text).insertedUnits = 0) :
    CleanWithin env minBlockChars text := by
  intro hmany
  rw [dedupeWithinMessage, if_neg (not_lt.2 hmany)] at h
  have hle := countP_foldl_le env (sortedBlocks (findSuffixBlocks minBlockChars text))
    (untouched text) (by simp [untouched])
  exact (whole_of_foldl _ _ (by simp [untouched]) (by omega)).2

theorem restoresAll_single_iff {found : List Text → Text → Text → Prop} (slot : Slot) :
    RestoresAll env found deduped [slot] ↔
      Restores env (found []) (outputOf deduped slot) slot.text := by
  constructor
  · exact fun h => h [] slot [] rfl
  · intro h before slot' after heq
    cases before with
    | nil =>
      cases heq
      exact h
    | cons slot'' before => simp at heq

/-- The outputs of the slots can be read back exactly when the deduplication is undoable. -/
theorem restoresAll_iff (env : Env) (minBlockChars : ℚ) (slots : List Slot) :
    RestoresAll env (foundIn slots) (dedupMessageTexts env minBlockChars slots) slots ↔
      Undoable env minBlockChars slots := by
  match slots with
  | [] => exact restoresAll_across_iff
  | [slot] =>
    rw [restoresAll_single_iff, Undoable, dedupMessageTexts, foundIn]
    split
    · next hnone =>
      exact iff_of_true (restores_untouched _) (cleanWithin_of_no_marker hnone)
    · rw [outputOf, OrdMap.get_set_self, Option.getD_some]
      exact restores_within_iff env minBlockChars slot.text
  | slot :: slot' :: slots => exact restoresAll_across_iff

/-- For every message list and every bound on the length of blocks: the messages keep all but the
texts of their slots, and the original texts can be read back, slot by slot, by expanding each
inserted marker to the block with its hash in the text of an earlier slot (or, of a single slot,
earlier in it), if and only if no two slots with different texts share the key of a rewritten one,
or, with a single slot, no occurrence that is replaced overlaps a marker inserted before. -/
theorem lossless_iff (env : Env) (minBlockChars : ℚ) (messages : List (Message O)) :
    Lossless env minBlockChars messages ↔ Undoable env minBlockChars (slotsFrom 0 messages) := by
  rw [← restoresAll_iff]
  exact ⟨fun h => h.restores, fun h => ⟨skeleton_rewriteFrom 0 messages,
    slotsFrom_rewriteFrom 0 messages, h⟩⟩

/-! ## Two lists that cannot be read back -/

instance (env : Env) (minBlockChars : ℚ) (slots : List Slot) :
    Decidable (NoClash env minBlockChars slots) :=
  inferInstanceAs (Decidable (∀ slot ∈ slots, ∀ slot' ∈ slots, slot.key = slot'.key →
    (rewriteSlot env minBlockChars (firstSeenOf env minBlockChars slots) slot).isSome →
      slot.text = slot'.text))

instance (env : Env) (minBlockChars : ℚ) (text : Text) :
    Decidable (CleanWithin env minBlockChars text) :=
  decidable_of_iff (2 ≤ (findSuffixBlocks minBlockChars text).length →
      cleanRounds env (untouched text) (findSuffixBlocks minBlockChars text) = true) <| by
    rw [CleanWithin, sortedBlocks_findSuffixBlocks]

instance (env : Env) (minBlockChars : ℚ) : DecidablePred (Undoable env minBlockChars)
  | [] => inferInstanceAs (Decidable (NoClash env minBlockChars []))
  | [slot] => inferInstanceAs (Decidable (CleanWithin env minBlockChars slot.text))
  | slot :: slot' :: slots => inferInstanceAs
      (Decidable (NoClash env minBlockChars (slot :: slot' :: slots)))

/-- Units without the bracket. -/
def escapeUnit (u : UInt16) : Text := if u = bracket then [0, 1] else if u = 0 then [0, 2] else [u]

theorem escapeUnit_append_inj {u v : UInt16} {s t : Text}
    (h : escapeUnit u ++ s = escapeUnit v ++ t) : u = v ∧ s = t := by
  rw [escapeUnit, escapeUnit] at h
  split at h
  · next hu =>
    split at h
    · next hv => exact ⟨hu.trans hv.symm, by simpa using h⟩
    · split at h
      · simp at h
      · next hv => exact absurd (List.cons.inj h).1.symm hv
  · next hu =>
    split at h
    · next hu0 =>
      split at h
      · simp at h
      · split at h
        · next hv0 => exact ⟨hu0.trans hv0.symm, by simpa using h⟩
        · next hv => exact absurd (List.cons.inj h).1.symm hv
    · next hu0 =>
      split at h
      · exact absurd (List.cons.inj h).1 hu0
      · split at h
        · exact absurd (List.cons.inj h).1 hu0
        · exact List.cons.inj h

theorem escapeUnit_ne_nil (u : UInt16) : escapeUnit u ≠ [] := by
  rw [escapeUnit]
  split
  · exact cons_ne_nil _ _
  · split <;> exact cons_ne_nil _ _

theorem escape_inj (b c : Text) (h : b.flatMap escapeUnit = c.flatMap escapeUnit) : b = c := by
  induction b generalizing c with
  | nil =>
    cases c with
    | nil => rfl
    | cons v c => simp [escapeUnit_ne_nil] at h
  | cons u b ih =>
    cases c with
    | nil => simp [escapeUnit_ne_nil] at h
    | cons v c =>
      obtain ⟨rfl, hrest⟩ := escapeUnit_append_inj h
      rw [ih c hrest]

/-- A block without brackets for its hash. -/
def escapeHash : Env where
  hashBlock b := b.flatMap escapeUnit
  hash_inj := escape_inj
  hash_no_bracket b h := by
    obtain ⟨u, -, hu⟩ := mem_flatMap.1 h
    rw [escapeUnit] at hu
    split at hu
    · exact absurd hu (by decide)
    · next hne =>
      split at hu
      · exact absurd hu (by decide)
      · exact hne (mem_singleton.1 hu).symm

/-- The third message repeats the first part of the first and has the key of the second part. -/
def sharedKey : List (Message Unit) :=
  let block := units ("The first line of the block is long enough.\n" ++
    "The second one is as well.\nThe third ends it.")
  [⟨false, .parts [.text block (), .text (units "A question.") ()], ()⟩,
    ⟨false, .string (units "An answer."), ()⟩, ⟨false, .string block, ()⟩]

/-- The second heading is replaced, and then the lines that follow begin with its bracket. -/
def brokenMarker : List (Message Unit) :=
  let lines := "\nfirst\nsecond"
  let block := "Heading\n]" ++ lines
  [⟨false, .string (units (block ++ "\n" ++ block ++ lines ++ "\nremark\n" ++ block)), ()⟩]

theorem sharedKey_not_lossless :
    ¬Lossless escapeHash 80 sharedKey ∧ ¬Lossless escapeHash 12 brokenMarker := by
  have hkey : ¬Undoable escapeHash 80 (slotsFrom 0 sharedKey) := by decide +kernel
  have hmarker : ¬Undoable escapeHash 12 (slotsFrom 0 brokenMarker) := by decide +kernel
  exact ⟨fun h => hkey ((restoresAll_iff _ _ _).1 h.restores),
    fun h => hmarker ((restoresAll_iff _ _ _).1 h.restores)⟩

end OmniRoute.SessionDedup
