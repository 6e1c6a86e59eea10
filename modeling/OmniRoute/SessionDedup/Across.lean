import OmniRoute.SessionDedup.Pieces

/-!
# Deduplication across slots

A slot is rewritten only when an earlier slot has the block, since the blocks are recorded in the
order of the conversation (`found_of_ownedEarlier`). But slots are told apart by their keys: the
key of a part is computed from two indices and may be that of another message, and then what one
of the two slots becomes, the other becomes too.

**Main result (`restoresAll_across_iff`).** All slots can be read back exactly when slots with
the same key have the same text, if one of them is rewritten.
-/

namespace OmniRoute.SessionDedup

open List Option

variable {env : Env} {minBlockChars : ℚ} {slots : List Slot} {slot : Slot} {text block : Text}

/-! ## Blocks -/

theorem suffixBlocksFrom_spec {starts : ℕ} {lines seen : List Text} {total : ℕ}
    (h : block ∈ suffixBlocksFrom minBlockChars starts lines seen total) :
    ∃ n, minBlockLines + n ≤ lines.length ∧ block = joinLines (lines.drop n) := by
  induction starts generalizing lines seen total with
  | zero => cases h
  | succ starts ih =>
    cases lines with
    | nil => cases h
    | cons line lines =>
      have htail : ∀ {seen total}, block ∈ suffixBlocksFrom minBlockChars starts lines seen total →
          ∃ n, minBlockLines + n ≤ (line :: lines).length ∧
            block = joinLines ((line :: lines).drop n) := by
        intro seen total hmem
        obtain ⟨n, hle, heq⟩ := ih hmem
        exact ⟨n + 1, by simp only [length_cons]; omega, heq⟩
      rw [suffixBlocksFrom] at h
      split at h
      · next hblock =>
        have hhere : minBlockLines + 0 ≤ (line :: lines).length := hblock.1
        split at h
        · exact ⟨0, hhere, mem_singleton.1 h⟩
        · obtain rfl | hmem := mem_cons.1 h
          · exact ⟨0, hhere, rfl⟩
          · exact htail hmem
      · exact htail h

theorem joinLines_drop_suffix (lines : List Text) (n : ℕ) :
    joinLines (lines.drop n) <:+ joinLines lines := by
  induction n generalizing lines with
  | zero => exact suffix_rfl
  | succ n ih =>
    cases lines with
    | nil => exact suffix_rfl
    | cons line lines =>
      refine (ih lines).trans ?_
      cases lines with
      | nil => exact nil_suffix
      | cons line' lines =>
        exact ⟨line ++ [newline], by simp [joinLines, intercalate_cons_cons]⟩

/-- A block is the end of its text. -/
theorem suffix_of_mem_blocks (h : block ∈ findSuffixBlocks minBlockChars text) :
    block <:+ text := by
  obtain ⟨n, -, rfl⟩ := suffixBlocksFrom_spec h
  have hsuffix := joinLines_drop_suffix (splitLines text) n
  rwa [show joinLines (splitLines text) = text from intercalate_splitOn newline] at hsuffix

theorem ne_nil_of_mem_blocks (h : block ∈ findSuffixBlocks minBlockChars text) : block ≠ [] := by
  obtain ⟨n, hle, rfl⟩ := suffixBlocksFrom_spec h
  obtain ⟨line, line', lines, hlines⟩ : ∃ line line' lines,
      (splitLines text).drop n = line :: line' :: lines := by
    cases hdrop : (splitLines text).drop n with
    | nil =>
      have hlen := congrArg List.length hdrop
      simp only [length_drop, length_nil, minBlockLines] at hlen hle
      omega
    | cons line rest =>
      cases rest with
      | nil =>
        have hlen := congrArg List.length hdrop
        simp only [length_drop, length_singleton, minBlockLines] at hlen hle
        omega
      | cons line' lines => exact ⟨line, line', lines, rfl⟩
  rw [hlines, joinLines, intercalate_cons_cons]
  simp

theorem splitFirst_spec {before after : Text} (h : splitFirst block text = some (before, after)) :
    text = before ++ block ++ after := by
  induction text generalizing before with
  | nil =>
    rw [splitFirst] at h
    split at h
    · next hblock =>
      cases h
      simp [hblock]
    · cases h
  | cons unit text ih =>
    rw [splitFirst] at h
    split at h
    · next hprefix =>
      cases h
      exact (prefix_iff_eq_append.1 ( isPrefixOf_iff_prefix.1 hprefix)).symm
    · obtain ⟨p, hp, heq⟩ := map_eq_some_iff.1 h
      cases heq
      simp only [cons_append]
      rw [ih hp]

/-! ## Who has a block first -/

/-- All blocks of the slots with the keys of their slots, in order. -/
def keyedBlocks (minBlockChars : ℚ) (slots : List Slot) : List (ℕ × Text) :=
  slots.flatMap fun slot => (findSuffixBlocks minBlockChars slot.text).map fun block =>
    (slot.key, block)

theorem get_foldl_recordBlock (entries : List (ℕ × Text)) (firstSeen : OrdMap Text (ℕ × Text))
    (hash : Text) :
    (entries.foldl (fun m entry => recordBlock env entry.1 m entry.2) firstSeen).get hash =
      (firstSeen.get hash).or (entries.find? fun entry => env.hashBlock entry.2 = hash) := by
  induction entries generalizing firstSeen with
  | nil => simp
  | cons entry entries ih =>
    rw [foldl_cons, ih, find?_cons]
    by_cases hhash : env.hashBlock entry.2 = hash
    · cases hget : firstSeen.get hash with
      | _ => simp [recordBlock, hhash, hget]
    · have hne : ¬hash = env.hashBlock entry.2 := fun heq => hhash heq.symm
      cases hget : firstSeen.get (env.hashBlock entry.2) with
      | none => simp [recordBlock, hget, OrdMap.get_set, hhash, hne]
      | some owner => simp [recordBlock, hget, hhash]

/-- A hash belongs to the first block that has it. -/
theorem get_firstSeenOf (hash : Text) : (firstSeenOf env minBlockChars slots).get hash =
    (keyedBlocks minBlockChars slots).find? fun entry => env.hashBlock entry.2 = hash := by
  have hfold : firstSeenOf env minBlockChars slots = (keyedBlocks minBlockChars slots).foldl
      (fun m entry => recordBlock env entry.1 m entry.2) .empty := by
    simp only [firstSeenOf, keyedBlocks, foldl_flatMap, foldl_map]
  rw [hfold, get_foldl_recordBlock, OrdMap.get_empty, none_or]

/-- A block that a slot has and a smaller key owns is found in a slot before. -/
theorem found_of_ownedEarlier {before after : List Slot} (hslots : slots = before ++ slot :: after)
    (hblock : block ∈ findSuffixBlocks minBlockChars slot.text)
    (howned : ownedEarlier env (firstSeenOf env minBlockChars slots) slot.key block = true) :
    ∃ earlier ∈ before, block <:+ earlier.text := by
  rw [ownedEarlier, get_firstSeenOf, hslots] at howned
  have hkeyed : keyedBlocks minBlockChars (before ++ slot :: after) =
      keyedBlocks minBlockChars before ++ ((findSuffixBlocks minBlockChars slot.text).map
        (fun block => (slot.key, block)) ++ keyedBlocks minBlockChars after) := by
    simp [keyedBlocks]
  rw [hkeyed, find?_append, find?_append] at howned
  cases hfirst : (keyedBlocks minBlockChars before).find?
      fun entry => env.hashBlock entry.2 = env.hashBlock block with
  | some owner =>
    simp only [hfirst, some_or, decide_eq_true_eq] at howned
    obtain ⟨earlier, hearlier, hmem⟩ := mem_flatMap.1 (mem_of_find?_eq_some hfirst)
    obtain ⟨block', hblock', rfl⟩ := List.mem_map.1 hmem
    obtain rfl : block' = block := howned.2
    exact ⟨earlier, hearlier, suffix_of_mem_blocks hblock'⟩
  | none =>
    -- The slot itself has the block, so it would own it.
    have hsome : ((findSuffixBlocks minBlockChars slot.text).map fun block => (slot.key, block)).find?
        (fun entry => env.hashBlock entry.2 = env.hashBlock block) ≠ none := by
      rw [Ne, find?_eq_none]
      intro hnone
      exact hnone (slot.key, block) (List.mem_map.2 ⟨block, hblock, rfl⟩) (by simp)
    obtain ⟨owner, howner⟩ := ne_none_iff_exists'.1 hsome
    obtain ⟨block', -, hkey⟩ := List.mem_map.1 (mem_of_find?_eq_some howner)
    simp only [hfirst, none_or, howner, some_or, decide_eq_true_eq, ← hkey] at howned
    exact absurd howned.1 (lt_irrefl _)

/-! ## The second pass -/

/-- A rewritten slot has one block replaced by its marker. -/
theorem rewriteSlot_spec {firstSeen : OrdMap Text (ℕ × Text)} {out : Output}
    (h : rewriteSlot env minBlockChars firstSeen slot = some out) :
    ∃ before block after, slot.text = before ++ block ++ after ∧
      out = ⟨plain before ++ inserted env block ++ plain after, (marker env block).length⟩ ∧
      block ∈ findSuffixBlocks minBlockChars slot.text ∧
      ownedEarlier env firstSeen slot.key block = true := by
  obtain ⟨block, hmem, hsome⟩ := exists_of_findSome?_eq_some h
  obtain ⟨hblock, howned⟩ := mem_filter.1 (mem_mergeSort.1 hmem)
  obtain ⟨p, hp, rfl⟩ := map_eq_some_iff.1 hsome
  exact ⟨p.1, block, p.2, splitFirst_spec hp, rfl, hblock, howned⟩

/-- What the second pass makes of the slots, given the first. -/
def secondPass (env : Env) (minBlockChars : ℚ) (firstSeen : OrdMap Text (ℕ × Text))
    (deduped : OrdMap ℕ Output) (slots : List Slot) : OrdMap ℕ Output :=
  slots.foldl (fun deduped slot =>
    match rewriteSlot env minBlockChars firstSeen slot with
    | some out => deduped.set slot.key out
    | none => deduped) deduped

/-- What is found under a key was made of a slot with that key. -/
theorem secondPass_spec (env : Env) (minBlockChars : ℚ) (firstSeen : OrdMap Text (ℕ × Text))
    (deduped : OrdMap ℕ Output) (slots : List Slot) (key : ℕ) :
    (∀ out, (secondPass env minBlockChars firstSeen deduped slots).get key = some out →
      deduped.get key = some out ∨ ∃ slot ∈ slots, slot.key = key ∧
        rewriteSlot env minBlockChars firstSeen slot = some out) ∧
    ((deduped.get key).isSome ∨ (∃ slot ∈ slots, slot.key = key ∧
        (rewriteSlot env minBlockChars firstSeen slot).isSome) →
      ((secondPass env minBlockChars firstSeen deduped slots).get key).isSome) := by
  induction slots generalizing deduped with
  | nil => simp [secondPass]
  | cons slot slots ih =>
    cases hrewrite : rewriteSlot env minBlockChars firstSeen slot with
    | none =>
      have hpass : secondPass env minBlockChars firstSeen deduped (slot :: slots) =
          secondPass env minBlockChars firstSeen deduped slots := by
        simp [secondPass, hrewrite]
      rw [hpass]
      simpa [hrewrite] using ih deduped
    | some out =>
      have hpass : secondPass env minBlockChars firstSeen deduped (slot :: slots) =
          secondPass env minBlockChars firstSeen (deduped.set slot.key out) slots := by
        simp [secondPass, hrewrite]
      rw [hpass]
      obtain ⟨hget, hsome⟩ := ih (deduped.set slot.key out)
      constructor
      · intro out' hout'
        obtain hset | ⟨slot', hmem, hkey, heq⟩ := hget out' hout'
        · rw [OrdMap.get_set] at hset
          split at hset
          · next hkey =>
            cases hset
            exact Or.inr ⟨slot, mem_cons_self, hkey.symm, hrewrite⟩
          · exact Or.inl hset
        · exact Or.inr ⟨slot', mem_cons_of_mem _ hmem, hkey, heq⟩
      · intro hor
        refine hsome ?_
        by_cases hkey : key = slot.key
        · exact Or.inl (by simp [hkey])
        · rw [OrdMap.get_set_ne _ hkey]
          obtain hold | ⟨slot', hmem, hkey', heq⟩ := hor
          · exact Or.inl hold
          · obtain rfl | hmem := mem_cons.1 hmem
            · exact absurd hkey'.symm hkey
            · exact Or.inr ⟨slot', hmem, hkey', heq⟩

/-! ## All slots -/

/-- A block is found in the text of an earlier slot. -/
def FoundAcross (earlier : List Text) (_ block : Text) : Prop :=
  ∃ text ∈ earlier, block <:+: text

/-- A block is found earlier in the slot. -/
def FoundWithin (_ : List Text) (before block : Text) : Prop := block <:+: before

/-- Every slot can be read back, given the texts of the slots before it. -/
def RestoresAll (env : Env) (found : List Text → Text → Text → Prop) (deduped : OrdMap ℕ Output)
    (slots : List Slot) : Prop :=
  ∀ before slot after, slots = before ++ slot :: after →
    Restores env (found (before.map (·.text))) (outputOf deduped slot) slot.text

/-- Slots with the same key have the same text, if the first of them is rewritten. -/
def NoClash (env : Env) (minBlockChars : ℚ) (slots : List Slot) : Prop :=
  ∀ slot ∈ slots, ∀ slot' ∈ slots, slot.key = slot'.key →
    (rewriteSlot env minBlockChars (firstSeenOf env minBlockChars slots) slot).isSome →
      slot.text = slot'.text

theorem restoresAll_across_iff : RestoresAll env FoundAcross
    (secondPass env minBlockChars (firstSeenOf env minBlockChars slots) .empty slots) slots ↔
    NoClash env minBlockChars slots := by
  have hspec := secondPass_spec env minBlockChars (firstSeenOf env minBlockChars slots) .empty slots
  constructor
  · intro hall
    -- Both slots read back the text of the slot that was rewritten last.
    have htext : ∀ slot ∈ slots, ∀ out,
        (secondPass env minBlockChars (firstSeenOf env minBlockChars slots) .empty slots).get
          slot.key = some out → ∀ before block after,
        out = ⟨plain before ++ inserted env block ++ plain after, (marker env block).length⟩ →
        slot.text = before ++ block ++ after := by
      intro slot hslot out hout before block after heq
      obtain ⟨pre, post, hslots⟩ := append_of_mem hslot
      have hrestores := hall pre slot post hslots
      rw [outputOf, hout, getD_some, heq] at hrestores
      exact (restores_replaced_iff.1 hrestores).2
    intro slot hslot slot' hslot' hkey hsome
    obtain ⟨out, hout⟩ := isSome_iff_exists.1
      ((hspec slot.key).2 (Or.inr ⟨slot, hslot, rfl, hsome⟩))
    obtain hempty | ⟨slot'', -, -, hrewrite⟩ := (hspec slot.key).1 out hout
    · cases hempty
    · obtain ⟨before, block, after, -, heq, -⟩ := rewriteSlot_spec hrewrite
      rw [htext slot hslot out hout before block after heq,
        htext slot' hslot' out (hkey ▸ hout) before block after heq]
  · intro hclash before slot after hslots
    cases hget : (secondPass env minBlockChars (firstSeenOf env minBlockChars slots) .empty
        slots).get slot.key with
    | none =>
      rw [outputOf, hget]
      exact restores_untouched _
    | some out =>
      obtain hempty | ⟨slot', hslot', hkey, hrewrite⟩ := (hspec slot.key).1 out hget
      · cases hempty
      · obtain ⟨pre, block, post, htext, rfl, hblock, howned⟩ := rewriteSlot_spec hrewrite
        have hslot : slot ∈ slots := hslots ▸ by simp
        have hsame := hclash slot' hslot' slot hslot hkey (by simp [hrewrite])
        rw [hsame] at hblock htext
        rw [hkey] at howned
        obtain ⟨earlier, hearlier, hsuffix⟩ := found_of_ownedEarlier hslots hblock howned
        rw [outputOf, hget, getD_some]
        exact restores_replaced_iff.2
          ⟨⟨earlier.text, List.mem_map.2 ⟨earlier, hearlier, rfl⟩, hsuffix.isInfix⟩, htext⟩

end OmniRoute.SessionDedup
