import OmniRoute.CcrMarkers.Ionizer
import OmniRoute.CcrStore.Accounting

/-!
# Markers that can be read back

A text is meant to become a marker only where the caller has the tool that reads the store, and never
in the output of a tool. The CCR engine sees to both (`respects_ccrApply`). The other two passes that
write to the store look at neither.

**Main result (`noStranded_iff`).** All three respect a request exactly when no message that the
fuzzy pass or the ionizer makes shorter, with a block that the store takes, comes from a caller
without the tool or is the output of one. The store takes every block of up to two megabytes
(`stored_of_small`).
-/

namespace OmniRoute.CcrMarkers

open JsData List Option StateWalk CodeUnits

variable {N : Type}

/-! ## What is meant -/

/-- The messages that were changed may be. -/
def Respects (tools : Option (JsData N)) (old new : List (JsData N)) : Prop :=
  ∀ (i : ℕ) (msg msg' : JsData N), old[i]? = some msg → new[i]? = some msg' → msg' ≠ msg →
    callerSupportsCcrRetrieve tools = true ∧ isToolOutput msg = false

/-- A body, with its messages after the exact pass of the session dedup engine, and the
configurations of the steps. -/
structure Request (N : Type) where
  tools : Option (JsData N)
  messages : List (JsData N)
  exactMessages : List (JsData N)
  principalId : Option String := none
  ccr : StepConfig := {}
  fuzzy : FuzzyConfig := {}
  minBlockChars : ℚ
  ionizer : IonizerConfig := {}

section Statements

variable (env : Env N) (r : Request N) (s : CcrStore.State)

/-- No engine leaves a marker that cannot be read back or stands for the output of a tool. -/
structure NoStranded : Prop where
  ccr : ∀ new ∈ ccrApply env r.ccr r.principalId r.tools r.messages s, Respects r.tools r.messages new
  fuzzy : Respects r.tools r.exactMessages
    (runFuzzyPass env r.fuzzy r.minBlockChars r.principalId r.exactMessages s)
  ionizer : Respects r.tools r.messages (runIonizerPass env r.ionizer r.principalId r.messages s)

/-- The store takes a block and its marker is shorter. -/
def FuzzyTakes (block : FuzzyBlock) (s : CcrStore.State) : Prop :=
  ∃ hash, (tryStoreBlock env r.principalId block.text s).1 = some hash ∧
    (buildCcrMarker hash block.text.length).length < block.text.length

/-- The store takes a text and its sample is shorter. -/
def IonizerTakes (rows kept : List (JsData N)) (serialized : CodeUnits) (s : CcrStore.State) :
    Prop :=
  ∃ hash, (tryStoreBlock env r.principalId serialized s).1 = some hash ∧
    (ionizedText env rows kept hash serialized).length < serialized.length

/-- The near duplicates that are taken may become markers. -/
def FuzzyAllowed : Prop :=
  let blocks := nearDuplicates r.fuzzy r.minBlockChars r.exactMessages
  ∀ (k : ℕ) (block : FuzzyBlock) (msg : JsData N), blocks[k]? = some block →
    r.exactMessages[block.index]? = some msg →
      FuzzyTakes env r block (StateWalk.stateAt (fuzzyMarker env r.principalId) blocks s k) →
        callerSupportsCcrRetrieve r.tools = true ∧ isToolOutput msg = false

/-- The arrays that are taken may become samples. -/
def IonizerAllowed : Prop :=
  let threshold := r.ionizer.threshold.getD 200
  let targetRows := r.ionizer.targetRows.getD 50
  r.ionizer.enabled ≠ some false → r.messages.any isNull = false →
    ∀ (i : ℕ) (msg : JsData N) (serialized : CodeUnits) (rows kept : List (JsData N)),
      r.messages[i]? = some msg → isText (field msg "role") "system" = false →
        field msg "content" = some (.str serialized) →
          sampled env threshold targetRows serialized = some (rows, kept) →
            IonizerTakes env r rows kept serialized
              (StateWalk.stateAt (ionizeMessage env threshold targetRows r.principalId) r.messages
                s i) →
              callerSupportsCcrRetrieve r.tools = true ∧ isToolOutput msg = false

end Statements

/-! ## Changed messages -/

theorem getElem?_merged {α : Type} {old : List α} {new : List (Option α)} {i : ℕ} {a b : α}
    (hold : old[i]? = some a) (hnew : (merged old new)[i]? = some b) (hne : b ≠ a) :
    new[i]? = some (some b) := by
  unfold merged at hnew
  rw [getElem?_zipWith, hold] at hnew
  cases hi : new[i]? with
  | none =>
    rw [hi] at hnew
    cases hnew
  | some result =>
    rw [hi] at hnew
    have hb : result.getD a = b := some.inj hnew
    cases result with
    | none => exact absurd hb.symm hne
    | some result => rw [show result = b from hb]

theorem merged_of_some {α : Type} {old : List α} {new : List (Option α)} {i : ℕ} {a b : α}
    (hold : old[i]? = some a) (hnew : new[i]? = some (some b)) :
    (merged old new)[i]? = some b := by
  unfold merged
  rw [getElem?_zipWith, hold, hnew]
  rfl

/-- A shorter text is another content. -/
theorem withField_content_ne {msg : JsData N} {text text' : CodeUnits}
    (hcontent : field msg "content" = some (.str text)) (hlt : text'.length < text.length) :
    withField msg "content" (.str text') ≠ msg := by
  intro heq
  have hfield : field (withField msg "content" (.str text')) "content" = some (.str text') :=
    field_withField_self hcontent
  rw [heq, hcontent] at hfield
  have htext : text = text' := by
    injection hfield with h
    injection h
  rw [htext] at hlt
  exact lt_irrefl _ hlt

/-! ## The CCR engine -/

variable {principalId : Option String}

/-- The engine changes no output of a tool. -/
theorem not_toolOutput_of_processMessage {env : Env N} {minChars rampFactor : ℚ}
    {msg msg' : JsData N} {s : CcrStore.State}
    (h : (processMessage env minChars principalId rampFactor msg s).1 = some msg') :
    isToolOutput msg = false := by
  unfold processMessage at h
  split at h
  · cases h
  · split at h
    · cases h
    · next htool => exact Bool.eq_false_iff.2 htool

/-- The CCR engine respects every request. -/
theorem respects_ccrApply {env : Env N} {stepConfig : StepConfig}
    {tools : Option (JsData N)} {messages new : List (JsData N)} {s : CcrStore.State}
    (h : ccrApply env stepConfig principalId tools messages s = some new) :
    Respects tools messages new := by
  unfold ccrApply at h
  split at h
  · cases h
  · split at h
    · cases h
    · next hsupports =>
      split at h
      · cases h
      · dsimp only at h
        split at h
        · cases h
          intro i msg msg' hold hnew hne
          refine ⟨Bool.not_eq_false _ ▸ hsupports, ?_⟩
          have hresult := getElem?_merged hold hnew hne
          unfold processMessages at hresult
          rw [getElem?_walk, hold] at hresult
          exact not_toolOutput_of_processMessage (some.inj hresult)
        · cases h

/-! ## The fuzzy pass -/

section Fuzzy

variable {env : Env N} {r : Request N} {s : CcrStore.State}

variable {principalId : Option String}

theorem fuzzyMarker_eq_some {block : FuzzyBlock} {marker : CodeUnits} :
    (fuzzyMarker env principalId block s).1 = some marker ↔
      ∃ hash, (tryStoreBlock env principalId block.text s).1 = some hash ∧
        marker = buildCcrMarker hash block.text.length ∧ marker.length < block.text.length := by
  unfold fuzzyMarker
  cases hstored : tryStoreBlock env principalId block.text s with
  | mk stored s' =>
    dsimp only
    cases stored with
    | none => simp
    | some hash =>
      dsimp only
      split
      · next hlt =>
        constructor
        · intro h
          cases h
          exact ⟨hash, rfl, rfl, hlt⟩
        · rintro ⟨hash', hhash, rfl, -⟩
          rw [some.inj hhash]
      · next hnot =>
        constructor
        · intro h
          cases h
        · rintro ⟨hash', hhash, rfl, hlt⟩
          rw [some.inj hhash] at hnot
          exact absurd hlt hnot

variable {messages : List (JsData N)} {minBlockChars : ℚ}

/-- A block is the text of the message at its index. -/
theorem block_text {block : FuzzyBlock} (h : block ∈ fuzzyBlocks minBlockChars messages)
    {msg : JsData N} (hmsg : messages[block.index]? = some msg) :
    field msg "content" = some (.str block.text) := by
  unfold fuzzyBlocks at h
  rw [mem_filterMap] at h
  obtain ⟨⟨msg', index⟩, hmem, hblock⟩ := h
  rw [mem_zipIdx_iff_getElem?] at hmem
  dsimp only at hblock hmem
  split at hblock
  · cases hblock
  · cases htext : text? (field msg' "content") with
    | none =>
      rw [htext] at hblock
      cases hblock
    | some text =>
      rw [htext] at hblock
      dsimp only at hblock
      split at hblock
      · cases hblock
        obtain rfl := some.inj (hmem.symm.trans hmsg)
        exact text?_eq_some.1 htext
      · cases hblock

theorem mem_blocks_of_nearDuplicate {cfg : FuzzyConfig} {block : FuzzyBlock}
    (h : block ∈ nearDuplicates cfg minBlockChars messages) :
    block ∈ fuzzyBlocks minBlockChars messages := by
  unfold nearDuplicates at h
  split at h
  · cases h
  · unfold findNearDuplicates at h
    split at h
    · cases h
    · dsimp only at h
      obtain ⟨⟨block', i⟩, hmem, rfl⟩ := List.mem_map.1 h
      exact (mem_zipIdx' (mem_of_mem_filter hmem)).2 ▸ getElem_mem _

/-- The markers are those of near duplicates that are taken. -/
theorem mem_fuzzyReplacements {nearDups : List FuzzyBlock} {i : ℕ} {marker : CodeUnits} :
    (i, marker) ∈ fuzzyReplacements env principalId nearDups s ↔
      ∃ (k : ℕ) (block : FuzzyBlock), nearDups[k]? = some block ∧ block.index = i ∧
        (fuzzyMarker env principalId block
          (StateWalk.stateAt (fuzzyMarker env principalId) nearDups s k)).1 = some marker := by
  unfold fuzzyReplacements
  rw [mem_filterMap]
  constructor
  · rintro ⟨⟨block, result⟩, hmem, hpair⟩
    obtain ⟨k, hk⟩ := mem_iff_getElem?.1 hmem
    rw [getElem?_zip_eq_some, getElem?_walk, map_eq_some_iff] at hk
    obtain ⟨hblock, block', hblock', hresult⟩ := hk
    obtain rfl := some.inj (hblock.symm.trans hblock')
    obtain ⟨marker', hmarker', heq⟩ := map_eq_some_iff.1 hpair
    obtain ⟨rfl, rfl⟩ := Prod.mk.inj heq
    exact ⟨k, block, hblock, rfl, hresult.trans hmarker'⟩
  · rintro ⟨k, block, hblock, rfl, hmarker⟩
    refine ⟨(block, some marker), mem_iff_getElem?.2 ⟨k, ?_⟩, rfl⟩
    rw [getElem?_zip_eq_some, getElem?_walk, hblock, map_some, hmarker]
    exact ⟨rfl, rfl⟩

theorem getElem?_runFuzzyPass {cfg : FuzzyConfig} {i : ℕ} {msg : JsData N}
    (hmsg : messages[i]? = some msg) :
    (runFuzzyPass env cfg minBlockChars principalId messages s)[i]? =
      some (replaceAt (fuzzyReplacements env principalId
        (nearDuplicates cfg minBlockChars messages) s) msg i) := by
  unfold runFuzzyPass
  dsimp only
  rw [getElem?_map, getElem?_zipIdx, hmsg]
  simp

/-- When the fuzzy pass respects a request. -/
theorem respects_fuzzy_iff :
    Respects r.tools r.exactMessages
      (runFuzzyPass env r.fuzzy r.minBlockChars r.principalId r.exactMessages s) ↔
      FuzzyAllowed env r s := by
  obtain ⟨blocks, hblocks⟩ : ∃ blocks,
    nearDuplicates r.fuzzy r.minBlockChars r.exactMessages = blocks := ⟨_, rfl⟩
  have htext : ∀ block ∈ blocks, ∀ msg, r.exactMessages[block.index]? = some msg →
      field msg "content" = some (.str block.text) := fun block hblock msg hmsg =>
    block_text (mem_blocks_of_nearDuplicate (hblocks ▸ hblock)) hmsg
  unfold FuzzyAllowed
  dsimp only
  rw [hblocks]
  constructor
  · intro h k block msg hblock hmsg htakes
    obtain ⟨hash, hstored, hlt⟩ := htakes
    have hmarker := fuzzyMarker_eq_some.2 ⟨hash, hstored, rfl, hlt⟩
    have hmem := mem_fuzzyReplacements.2 ⟨k, block, hblock, rfl, hmarker⟩
    -- some marker is found for the message, perhaps that of another block
    obtain ⟨marker', hlookup⟩ : ∃ marker',
        (fuzzyReplacements env r.principalId blocks s).lookup block.index = some marker' := by
      rw [← isSome_iff_exists, lookup_isSome_iff]
      exact ⟨_, hmem, beq_self_eq_true _⟩
    obtain ⟨l₁, l₂, hsplit, -⟩ := lookup_eq_some_iff.1 hlookup
    have hmem' : (block.index, marker') ∈ fuzzyReplacements env r.principalId blocks s := by
      rw [hsplit]
      exact mem_append_right _ mem_cons_self
    obtain ⟨k', block', hblock', hindex, hmarker'⟩ := mem_fuzzyReplacements.1 hmem'
    obtain ⟨hash', -, -, hlt'⟩ := fuzzyMarker_eq_some.1 hmarker'
    have hcontent := htext block' (mem_of_getElem? hblock') msg (hindex ▸ hmsg)
    refine h block.index msg _ hmsg (getElem?_runFuzzyPass hmsg) ?_
    rw [hblocks]
    unfold replaceAt
    rw [hlookup]
    exact withField_content_ne hcontent hlt'
  · intro h i msg msg' hmsg hmsg' hne
    rw [getElem?_runFuzzyPass hmsg, hblocks] at hmsg'
    cases hmsg'
    unfold replaceAt at hne
    split at hne
    · next marker hlookup =>
      obtain ⟨l₁, l₂, hsplit, -⟩ := lookup_eq_some_iff.1 hlookup
      have hmem : (i, marker) ∈ fuzzyReplacements env r.principalId blocks s := by
        rw [hsplit]
        exact mem_append_right _ mem_cons_self
      obtain ⟨k, block, hblock, rfl, hmarker⟩ := mem_fuzzyReplacements.1 hmem
      obtain ⟨hash, hstored, rfl, hlt⟩ := fuzzyMarker_eq_some.1 hmarker
      exact h k block msg hblock hmsg ⟨hash, hstored, hlt⟩
    · exact absurd rfl hne

end Fuzzy

/-! ## The ionizer -/

section Ionizer

variable {env : Env N} {r : Request N} {s : CcrStore.State}

theorem ionizeText_eq_some {threshold targetRows : ℚ} {serialized text : CodeUnits} :
    (ionizeText env threshold targetRows principalId serialized s).1 = some text ↔
      ∃ rows kept, sampled env threshold targetRows serialized = some (rows, kept) ∧
        ∃ hash, (tryStoreBlock env principalId serialized s).1 = some hash ∧
          text = ionizedText env rows kept hash serialized ∧ text.length < serialized.length := by
  unfold ionizeText
  cases hsampled : sampled env threshold targetRows serialized with
  | none => simp
  | some p =>
    obtain ⟨rows, kept⟩ := p
    dsimp only
    cases hstored : tryStoreBlock env principalId serialized s with
    | mk stored s' =>
      dsimp only
      cases stored with
      | none => simp
      | some hash =>
        dsimp only
        split
        · next hge =>
          constructor
          · intro h
            cases h
          · rintro ⟨rows', kept', heq, hash', hhash, rfl, hlt⟩
            obtain ⟨rfl, rfl⟩ := Prod.mk.inj (some.inj heq)
            rw [← some.inj hhash] at hlt
            exact absurd hlt (not_lt.2 hge)
        · next hlt =>
          constructor
          · intro h
            cases h
            exact ⟨rows, kept, rfl, hash, rfl, rfl, not_le.1 hlt⟩
          · rintro ⟨rows', kept', heq, hash', hhash, rfl, -⟩
            obtain ⟨rfl, rfl⟩ := Prod.mk.inj (some.inj heq)
            rw [some.inj hhash]

theorem ionizeMessage_eq_some {threshold targetRows : ℚ} {msg msg' : JsData N} :
    (ionizeMessage env threshold targetRows principalId msg s).1 = some msg' ↔
      isText (field msg "role") "system" = false ∧
        ∃ serialized text, field msg "content" = some (.str serialized) ∧
          (ionizeText env threshold targetRows principalId serialized s).1 = some text ∧
            msg' = withField msg "content" (.str text) := by
  unfold ionizeMessage
  by_cases hsystem : isText (field msg "role") "system" = true
  · simp [hsystem]
  · rw [if_neg hsystem]
    cases htext : text? (field msg "content") with
    | none =>
      simp only [reduceCtorEq, false_iff]
      rintro ⟨-, serialized, text, hcontent, -⟩
      rw [text?_eq_some.2 hcontent] at htext
      cases htext
    | some serialized =>
      have hcontent := text?_eq_some.1 htext
      dsimp only
      rw [map_eq_some_iff]
      constructor
      · rintro ⟨text, hionized, rfl⟩
        exact ⟨Bool.eq_false_iff.2 hsystem, serialized, text, hcontent, hionized, rfl⟩
      · rintro ⟨-, serialized', text, hcontent', hionized, rfl⟩
        rw [hcontent] at hcontent'
        have heq : serialized = serialized' := by
          injection hcontent' with h
          injection h
        subst heq
        exact ⟨text, hionized, rfl⟩

/-- When the ionizer respects a request. -/
theorem respects_ionizer_iff :
    Respects r.tools r.messages (runIonizerPass env r.ionizer r.principalId r.messages s) ↔
      IonizerAllowed env r s := by
  unfold IonizerAllowed runIonizerPass
  dsimp only
  by_cases hoff : r.ionizer.enabled = some false ∨ r.messages.any isNull = true
  · rw [if_pos hoff]
    constructor
    · intro _ henabled hnull
      rcases hoff with hoff | hoff
      · exact absurd hoff henabled
      · rw [hnull] at hoff
        cases hoff
    · intro _ i msg msg' hmsg hmsg' hne
      exact absurd (some.inj (hmsg'.symm.trans hmsg)) hne
  · obtain ⟨henabled, hnull⟩ := not_or.1 hoff
    rw [if_neg hoff]
    constructor
    · intro h _ _ i msg serialized rows kept hmsg hrole hcontent hsampled htakes
      obtain ⟨hash, hstored, hlt⟩ := htakes
      have hionized := ionizeText_eq_some.2 ⟨rows, kept, hsampled, hash, hstored, rfl, hlt⟩
      have hresult := ionizeMessage_eq_some.2 ⟨hrole, serialized, _, hcontent, hionized, rfl⟩
      refine h i msg _ hmsg (merged_of_some hmsg ?_) (withField_content_ne hcontent hlt)
      rw [getElem?_walk, hmsg, map_some, hresult]
    · intro h i msg msg' hmsg hmsg' hne
      have hresult := getElem?_merged hmsg hmsg' hne
      rw [getElem?_walk, hmsg] at hresult
      obtain ⟨hrole, serialized, text, hcontent, hionized, -⟩ :=
        ionizeMessage_eq_some.1 (some.inj hresult)
      obtain ⟨rows, kept, hsampled, hash, hstored, rfl, hlt⟩ := ionizeText_eq_some.1 hionized
      exact h henabled (Bool.eq_false_iff.2 hnull) i msg serialized rows kept hmsg hrole hcontent
        hsampled ⟨hash, hstored, hlt⟩

end Ionizer

/-! ## All engines -/

/-- **No marker is stranded** exactly when what the fuzzy pass and the ionizer take is allowed. -/
theorem noStranded_iff (env : Env N) (r : Request N) (s : CcrStore.State) :
    NoStranded env r s ↔ FuzzyAllowed env r s ∧ IonizerAllowed env r s := by
  constructor
  · intro h
    exact ⟨respects_fuzzy_iff.1 h.fuzzy, respects_ionizer_iff.1 h.ionizer⟩
  · rintro ⟨hfuzzy, hionizer⟩
    exact ⟨fun new hnew => respects_ccrApply hnew, respects_fuzzy_iff.2 hfuzzy,
      respects_ionizer_iff.2 hionizer⟩

/-- One hash for all texts, and numbers that nothing asks for. -/
def plainEnv : Env ℤ where
  store :=
    { hashContent := fun _ => "5f70bf18a086007016e948b0"
      hash_no_space := fun _ => by decide
      durableTierEnabled := false }
  retrievalCount := fun _ => 0
  defaultRampFactor := 2
  num :=
    { isFinite := fun _ => true
      text := fun n => ofString (toString n)
      isTruthy := fun n => decide (n ≠ 0)
      ofNat := fun n => n }
  isErrorStatus := fun n => decide (400 ≤ n ∧ n ≤ 599)
  parse := fun _ => none
  now := 0

def repeatedText : CodeUnits :=
  ofString
    "one two three four five six seven eight nine ten eleven twelve thirteen fourteen"

def toolMessage (text : CodeUnits) : JsData ℤ :=
  .obj [(ofString "role", .str (ofString "tool")),
    (ofString "content", .str text)]

/-- A tool returns the same text twice, to a caller without the tool that reads the store. -/
def repeatedOutput : Request ℤ where
  tools := none
  messages := []
  exactMessages := List.replicate 2 (toolMessage repeatedText)
  fuzzy := { enabled := true }
  minBlockChars := 40

theorem repeatedOutput_stranded : ¬NoStranded plainEnv repeatedOutput .init := by
  intro h
  have hallowed : FuzzyAllowed plainEnv repeatedOutput .init := respects_fuzzy_iff.1 h.fuzzy
  have hfuzzy := hallowed 0 ⟨repeatedText, 1⟩ (toolMessage repeatedText) (by decide +kernel) rfl
    ⟨"5f70bf18a086007016e948b0", by decide +kernel, by decide +kernel⟩
  exact absurd hfuzzy.1 (by decide +kernel)

end OmniRoute.CcrMarkers
