import OmniRoute.ContextManager.Loads
import OmniRoute.ContextManager.Survival

/-!
# What compression guarantees

The messages that `compressContext` returns are those of the first layer that fits, or what the
purification leaves. They hold a message other than the system's exactly when something outlasts
the repair of the last messages, and they are within the bound exactly when the kept messages leave
room for the notice.

**Main result (`compressContext_iff`).** The conversation is kept, shrunk and brought within the
target if and only if a layer fits or the last messages outlast the repair and leave room for the
notice.
-/

namespace OmniRoute.ContextManager

open JsData List

variable {N : Type} (num : JsNumbers N)

/-! ## The layers -/

section Layers

variable (surroundings : Surroundings) (options : CompressOptions) (messages : List (JsData N))

def trimmedMessages : List (JsData N) := trimToolMessages maxToolChars messages

def prunedMessages : List (JsData N) :=
  let imagePrune := pruneOlderInlineImages num surroundings.keepLatestImagesOverride
    options.keepLatestImages (some (targetTokensOf surroundings options)) (trimmedMessages messages)
  if 0 < imagePrune.2 then imagePrune.1 else trimmedMessages messages

/-- The messages as the purification finds them. -/
def rewrittenMessages : List (JsData N) :=
  compressThinking (prunedMessages num surroundings options messages)

/-- The messages are within the target before anything is dropped. -/
def FitsEarly : Prop :=
  fits num (targetTokensOf surroundings options) messages = true ∨
    fits num (targetTokensOf surroundings options) (trimmedMessages messages) = true ∨
    fits num (targetTokensOf surroundings options)
      (prunedMessages num surroundings options messages) = true ∨
    fits num (targetTokensOf surroundings options)
      (rewrittenMessages num surroundings options messages) = true

theorem sameRoles_trimmed : SameRoles messages (trimmedMessages messages) :=
  sameRoles_trimToolMessages _ _

theorem sameRoles_pruned :
    SameRoles messages (prunedMessages num surroundings options messages) := by
  unfold prunedMessages
  dsimp only
  split
  · exact (sameRoles_trimmed messages).trans (sameRoles_pruneOlderInlineImages _ _ _ _ _)
  · exact sameRoles_trimmed messages

theorem sameRoles_rewritten :
    SameRoles messages (rewrittenMessages num surroundings options messages) :=
  (sameRoles_pruned num surroundings options messages).trans (sameRoles_compressThinking _)

variable [DecidableEq N]

/-- The messages that are returned. -/
def returnedMessages : List (JsData N) :=
  let target := targetTokensOf surroundings options
  if fits num target messages then messages
  else if fits num target (trimmedMessages messages) then trimmedMessages messages
  else if fits num target (prunedMessages num surroundings options messages) then
    prunedMessages num surroundings options messages
  else if fits num target (rewrittenMessages num surroundings options messages) then
    rewrittenMessages num surroundings options messages
  else purifyHistory num (rewrittenMessages num surroundings options messages) target

theorem messages_compressContext {body : JsData N}
    (h : field body "messages" = some (.arr messages)) :
    field (compressContext num surroundings body options).body "messages" =
      some (.arr (returnedMessages num surroundings options messages)) := by
  have hwritten : ∀ l layers, field (compressedWith num body l
      (estimateTokens num (.arr messages)) layers).body "messages" = some (.arr l) :=
    fun l layers => field_withField_self h
  unfold compressContext returnedMessages rewrittenMessages prunedMessages trimmedMessages
  rw [elements_eq_some.2 h]
  dsimp only
  generalize targetTokensOf surroundings options = target
  generalize trimToolMessages maxToolChars messages = trimmed
  generalize pruneOlderInlineImages num surroundings.keepLatestImagesOverride
    options.keepLatestImages (some target) trimmed = imagePrune
  by_cases hfits : fits num target messages = true
  · rw [if_pos hfits, if_pos hfits]
    exact h
  rw [if_neg hfits, if_neg hfits]
  by_cases htrimmed : fits num target trimmed = true
  · rw [if_pos htrimmed, if_pos htrimmed]
    exact hwritten _ _
  rw [if_neg htrimmed, if_neg htrimmed]
  by_cases hpruned : 0 < imagePrune.2
  · simp only [hpruned, if_true, decide_true, Bool.true_and]
    split
    · exact hwritten _ _
    · split
      · exact hwritten _ _
      · exact hwritten _ _
  · simp only [hpruned, if_false, decide_false, Bool.false_and, Bool.false_eq_true, htrimmed]
    split
    · exact hwritten _ _
    · exact hwritten _ _

end Layers

/-! ## The purification -/

section Purification

variable [DecidableEq N] (targetTokens : ℚ) (messages : List (JsData N))

/-- The last messages other than the system's, from the cut point on. -/
def keptMessages : List (JsData N) :=
  sliceLast (keepOf num targetTokens messages) (nonSystemPart messages)

def droppedCount : ℕ := (nonSystemPart messages).length - keepOf num targetTokens messages

/-- What the repair leaves, with the system messages in front. -/
def repairedMessages : List (JsData N) :=
  systemPart messages ++ repair num (keptMessages num targetTokens messages)

/-- The characters of what is left, and of the notice when something was dropped. -/
def purifiedLoad : ℕ :=
  let repaired := repairedMessages num targetTokens messages
  if 0 < droppedCount num targetTokens messages then
    load num (.arr repaired) +
      noticeGain num (droppedNotice (droppedCount num targetTokens messages)) repaired -
      noticeLoss num repaired
  else load num (.arr repaired)

theorem candidate_eq :
    candidate num messages (keepOf num targetTokens messages) =
      repairedMessages num targetTokens messages :=
  repair_append_system num _ fun _ hmsg => (mem_filter.1 hmsg).2

theorem purifyHistory_eq :
    purifyHistory num messages targetTokens =
      if 0 < droppedCount num targetTokens messages then
        withNotice (droppedNotice (droppedCount num targetTokens messages))
          (repairedMessages num targetTokens messages)
      else repairedMessages num targetTokens messages := by
  unfold purifyHistory droppedCount
  dsimp only
  rw [candidate_eq]
  simp only [Nat.sub_pos_iff_lt]

theorem load_purifyHistory :
    load num (.arr (purifyHistory num messages targetTokens)) =
      purifiedLoad num targetTokens messages := by
  rw [purifyHistory_eq]
  unfold purifiedLoad
  dsimp only
  split
  · have hload := load_withNotice num
      (droppedNotice (droppedCount num targetTokens messages))
      (repairedMessages num targetTokens messages)
    omega
  · rfl

omit [DecidableEq N] in
theorem exists_other_withNotice (notice : CodeUnits) (l : List (JsData N)) :
    (∃ msg ∈ withNotice notice l, isSystem msg = false) ↔ ∃ msg ∈ l, isSystem msg = false := by
  have hnotice : isSystem (noticeMessage notice : JsData N) = true := by
    refine Bool.or_eq_true_iff.2 (.inl (isText_iff.2 ?_))
    show List.lookup _ ((CodeUnits.ofString "role", literal "system") :: _) = _
    rw [lookup_cons_ite, if_pos rfl, literal]
  cases l with
  | nil => simp [withNotice, hnotice]
  | cons first rest =>
    rw [withNotice]
    split
    · next hsystem =>
      have hfirst : isSystem (noticeInto notice first) = true :=
        (sameRole_withField first _).isSystem_eq.trans hsystem
      simp [hfirst, hsystem]
    · simp [hnotice]

/-- A message other than the system's is left exactly when something outlasts the repair. -/
theorem exists_other_purifyHistory_iff :
    (∃ msg ∈ purifyHistory num messages targetTokens, isSystem msg = false) ↔
      Outlasts num (keptMessages num targetTokens messages) := by
  have hkept : ∀ msg ∈ keptMessages num targetTokens messages, isSystem msg = false := by
    intro msg hmsg
    have hmem : msg ∈ nonSystemPart messages := by
      unfold keptMessages sliceLast at hmsg
      split at hmsg
      · exact hmsg
      · exact mem_of_mem_drop hmsg
    simpa using (mem_filter.1 hmem).2
  rw [← repair_ne_nil_iff, purifyHistory_eq]
  have hrepaired : (∃ msg ∈ repairedMessages num targetTokens messages, isSystem msg = false) ↔
      repair num (keptMessages num targetTokens messages) ≠ [] := by
    unfold repairedMessages
    constructor
    · rintro ⟨msg, hmsg, hother⟩
      rcases mem_append.1 hmsg with hmsg | hmsg
      · rw [(mem_filter.1 hmsg).2] at hother
        cases hother
      · exact ne_nil_of_mem hmsg
    · intro hne
      obtain ⟨msg, hmsg⟩ := exists_mem_of_ne_nil _ hne
      obtain ⟨msg₀, hmsg₀, hrole⟩ := sameRole_repair num _ hmsg
      exact ⟨msg, mem_append_right _ hmsg, hrole.isSystem_eq.trans (hkept msg₀ hmsg₀)⟩
  split
  · rw [exists_other_withNotice, hrepaired]
  · exact hrepaired

end Purification

/-! ## The claim and its condition -/

theorem SameRoles.exists_other {l l' : List (JsData N)} (h : SameRoles l l')
    (hother : ∃ msg ∈ l, isSystem msg = false) : ∃ msg ∈ l', isSystem msg = false := by
  induction h with
  | nil => exact hother
  | cons hrole _ ih =>
    obtain ⟨msg, hmsg, hmsg'⟩ := hother
    rcases mem_cons.1 hmsg with rfl | hmsg
    · exact ⟨_, mem_cons_self, hrole.isSystem_eq.trans hmsg'⟩
    · obtain ⟨m, hm, hm'⟩ := ih ⟨msg, hmsg, hmsg'⟩
      exact ⟨m, .tail _ hm, hm'⟩

/-- The conversation is not emptied, not made heavier, and within the target unless the purification
ended at its floor. -/
structure Compresses (targetTokens : ℚ) (keep : ℕ) (messages returned : List (JsData N)) :
    Prop where
  conversation : ∃ msg ∈ returned, isSystem msg = false
  shrinks : estimateTokens num (.arr returned) ≤ estimateTokens num (.arr messages)
  target : (estimateTokens num (.arr returned) : ℚ) ≤ targetTokens ∨ keep ≤ 2

section Claim

variable [DecidableEq N] (surroundings : Surroundings) (options : CompressOptions)
  (messages : List (JsData N))

/-- The number of messages at which the search of the purification ends. -/
def finalKeep : ℕ :=
  keepOf num (targetTokensOf surroundings options)
    (rewrittenMessages num surroundings options messages)

/-- The tokens that may be returned: at the floor of the search no more than there were before. -/
def allowance : ℚ :=
  if 2 < finalKeep num surroundings options messages then targetTokensOf surroundings options
  else estimateTokens num (.arr messages)

/-- What the last messages are when nothing fits before: something of them outlasts the repair, and
they leave room for the notice. -/
structure LastMessagesHold : Prop where
  outlasts : Outlasts num (keptMessages num (targetTokensOf surroundings options)
    (rewrittenMessages num surroundings options messages))
  room : (charTokens (purifiedLoad num (targetTokensOf surroundings options)
    (rewrittenMessages num surroundings options messages)) : ℚ) ≤
      allowance num surroundings options messages

omit [DecidableEq N] in
theorem compresses_of_fits {messages returned : List (JsData N)} {target : ℚ} {keep : ℕ}
    (hroles : SameRoles messages returned) (hother : ∃ msg ∈ messages, isSystem msg = false)
    (hlarge : ¬fits num target messages = true) (hfits : fits num target returned = true) :
    Compresses num target keep messages returned := by
  have hlarge : target < estimateTokens num (.arr messages) :=
    not_le.1 fun hle => hlarge (decide_eq_true hle)
  have hfits := of_decide_eq_true hfits
  exact ⟨hroles.exists_other hother, by exact_mod_cast hfits.trans hlarge.le, .inl hfits⟩

/-- Messages that a layer brings within the target are as they should be. -/
theorem compresses_of_fitsEarly {keep : ℕ} (hother : ∃ msg ∈ messages, isSystem msg = false)
    (h : FitsEarly num surroundings options messages) :
    Compresses num (targetTokensOf surroundings options) keep messages
      (returnedMessages num surroundings options messages) := by
  unfold returnedMessages
  dsimp only
  by_cases hfits : fits num (targetTokensOf surroundings options) messages = true
  · rw [if_pos hfits]
    exact ⟨hother, Nat.le_refl _, .inl (of_decide_eq_true hfits)⟩
  rw [if_neg hfits]
  split
  · next htrimmed =>
    exact compresses_of_fits num (sameRoles_trimmed messages) hother hfits htrimmed
  next htrimmed =>
  split
  · next hpruned =>
    exact compresses_of_fits num (sameRoles_pruned num surroundings options messages) hother hfits
      hpruned
  next hpruned =>
  split
  · next hrewritten =>
    exact compresses_of_fits num (sameRoles_rewritten num surroundings options messages) hother
      hfits hrewritten
  · next hrewritten =>
    rcases h with h | h | h | h
    · exact absurd h hfits
    · exact absurd h htrimmed
    · exact absurd h hpruned
    · exact absurd h hrewritten

theorem returnedMessages_of_not_fitsEarly (h : ¬FitsEarly num surroundings options messages) :
    returnedMessages num surroundings options messages =
      purifyHistory num (rewrittenMessages num surroundings options messages)
        (targetTokensOf surroundings options) := by
  unfold FitsEarly at h
  push Not at h
  obtain ⟨hfits, htrimmed, hpruned, hrewritten⟩ := h
  unfold returnedMessages
  dsimp only
  rw [if_neg hfits, if_neg htrimmed, if_neg hpruned, if_neg hrewritten]

theorem compresses_iff_of_not_fitsEarly (h : ¬FitsEarly num surroundings options messages) :
    Compresses num (targetTokensOf surroundings options)
        (finalKeep num surroundings options messages) messages
        (returnedMessages num surroundings options messages) ↔
      LastMessagesHold num surroundings options messages := by
  have hlarge : targetTokensOf surroundings options < estimateTokens num (.arr messages) :=
    not_le.1 fun hle => h (.inl (decide_eq_true hle))
  have hload := load_purifyHistory num (targetTokensOf surroundings options)
    (rewrittenMessages num surroundings options messages)
  have hother := exists_other_purifyHistory_iff num (targetTokensOf surroundings options)
    (rewrittenMessages num surroundings options messages)
  rw [returnedMessages_of_not_fitsEarly num surroundings options messages h]
  constructor
  · rintro ⟨hconversation, hshrinks, htarget⟩
    rw [estimateTokens_arr, hload] at hshrinks htarget
    refine ⟨hother.1 hconversation, ?_⟩
    unfold allowance
    split
    · next hkeep => exact htarget.resolve_right (not_le.2 hkeep)
    · exact_mod_cast hshrinks
  · rintro ⟨houtlasts, hroom⟩
    unfold allowance at hroom
    refine ⟨hother.2 houtlasts, ?_, ?_⟩
    · rw [estimateTokens_arr num (purifyHistory _ _ _), hload]
      split at hroom
      · exact_mod_cast hroom.trans hlarge.le
      · exact_mod_cast hroom
    · rw [estimateTokens_arr, hload]
      split at hroom
      · exact .inl hroom
      · next hkeep => exact .inr (not_lt.1 hkeep)

/-! ## When the texts are long enough -/

/-- The messages that the purification drops. -/
def droppedMessages (targetTokens : ℚ) (messages : List (JsData N)) : List (JsData N) :=
  (nonSystemPart messages).take (droppedCount num targetTokens messages)

/-- What is written is no longer than what it stands for: the rest of a text that is cut, a content
of nothing but thinking, and the messages that the notice counts. -/
structure TextsShorter : Prop where
  results : ∀ msg ∈ messages, ∀ v ∈ toolResultsOf msg, CutsShorter num maxToolChars v
  thinking : ∀ msg rest, msg :: rest <:+ prunedMessages num surroundings options messages →
    isRole msg "assistant" = true → rest.any (isRole · "assistant") = true →
    EmptiesShorter num msg
  notice : 0 < droppedCount num (targetTokensOf surroundings options)
      (rewrittenMessages num surroundings options messages) →
    noticeGain num (droppedNotice (droppedCount num (targetTokensOf surroundings options)
      (rewrittenMessages num surroundings options messages)))
      (repairedMessages num (targetTokensOf surroundings options)
        (rewrittenMessages num surroundings options messages)) ≤
    noticeLoss num (repairedMessages num (targetTokensOf surroundings options)
      (rewrittenMessages num surroundings options messages)) +
    itemsLoad num (droppedMessages num (targetTokensOf surroundings options)
      (rewrittenMessages num surroundings options messages))

theorem itemsLoad_rewritten_le (h : TextsShorter num surroundings options messages) :
    itemsLoad num (rewrittenMessages num surroundings options messages) ≤
      itemsLoad num messages := by
  have htrimmed : itemsLoad num (trimmedMessages messages) ≤ itemsLoad num messages :=
    itemsLoad_trimToolMessages_le num h.results
  have hpruned : itemsLoad num (prunedMessages num surroundings options messages) ≤
      itemsLoad num (trimmedMessages messages) := by
    unfold prunedMessages
    dsimp only
    split
    · exact itemsLoad_pruneOlderInlineImages_le num _ _ _ _
    · exact Nat.le_refl _
  exact (itemsLoad_compressThinking_le num h.thinking).trans (hpruned.trans htrimmed)

theorem searchKeep_pos (fits : ℕ → Bool) {keep : ℕ} (h : 0 < keep) :
    0 < ToolPairing.searchKeep fits keep := by
  fun_induction ToolPairing.searchKeep fits keep with
  | case1 keep _ _ => exact h
  | case2 keep _ _ _ ih => exact ih (lt_of_lt_of_le Nat.two_pos (Nat.le_max_left _ _))
  | case3 keep _ => exact h

/-- What is dropped and what is kept make up the messages other than the system's. -/
theorem droppedMessages_append (targetTokens : ℚ) (messages : List (JsData N)) :
    droppedMessages num targetTokens messages ++ keptMessages num targetTokens messages =
      nonSystemPart messages := by
  unfold droppedMessages keptMessages droppedCount sliceLast
  split
  · next hzero =>
    have hnil : nonSystemPart messages = [] := by
      by_contra hne
      exact absurd hzero (searchKeep_pos _ (length_pos_iff.2 hne)).ne'
    rw [hnil, take_nil, append_nil]
  · exact take_append_drop _ _

theorem itemsLoad_repairedMessages_le (targetTokens : ℚ) (messages : List (JsData N)) :
    itemsLoad num (repairedMessages num targetTokens messages) +
      itemsLoad num (droppedMessages num targetTokens messages) ≤ itemsLoad num messages := by
  have hrepair := itemsLoad_repair_le num (keptMessages num targetTokens messages)
  have hsplit := congrArg (itemsLoad num) (droppedMessages_append num targetTokens messages)
  have hparts : itemsLoad num (systemPart messages) + itemsLoad num (nonSystemPart messages) =
      itemsLoad num messages := itemsLoad_filter_add num isSystem messages
  rw [itemsLoad_append] at hsplit
  rw [repairedMessages, itemsLoad_append]
  omega

/-- At the floor of the search the notice has room when no text is longer than what it stands
for. -/
theorem lastMessagesHold_of_textsShorter (hfloor : finalKeep num surroundings options messages ≤ 2)
    (h : TextsShorter num surroundings options messages)
    (houtlasts : Outlasts num (keptMessages num (targetTokensOf surroundings options)
      (rewrittenMessages num surroundings options messages))) :
    LastMessagesHold num surroundings options messages := by
  refine ⟨houtlasts, ?_⟩
  rw [allowance, if_neg (not_lt.2 hfloor), estimateTokens_arr]
  have hrewritten := itemsLoad_rewritten_le num surroundings options messages h
  have hnotice := h.notice
  generalize rewrittenMessages num surroundings options messages = rewritten at *
  generalize targetTokensOf surroundings options = target at *
  have hrepaired := itemsLoad_repairedMessages_le num target rewritten
  have hne : repairedMessages num target rewritten ≠ [] := fun hnil =>
    (repair_ne_nil_iff num _).2 houtlasts (append_eq_nil_iff.1 hnil).2
  have hone := one_le_itemsLoad num hne
  have hle : purifiedLoad num target rewritten ≤ load num (.arr messages) := by
    unfold purifiedLoad
    dsimp only
    rw [load_arr, load_arr]
    split
    · next hdropped =>
      have hnotice := hnotice hdropped
      omega
    · omega
  exact_mod_cast charTokens_mono hle

end Claim

/-! ## Parallel results -/

/-- Numbers that are natural and written in decimal. -/
def decimals : JsNumbers ℕ where
  isFinite _ := true
  text n := CodeUnits.ofString (toString n)
  isTruthy n := decide (n ≠ 0)
  ofNat n := n

def toolResult (id : String) : JsData ℕ :=
  record [("role", literal "tool"), ("tool_call_id", literal id), ("content", literal "ok")]

/-- A question, three calls in one message, and their results. -/
def parallelResults : List (JsData ℕ) :=
  [record [("role", literal "user"), ("content", literal "hello")],
    record [("role", literal "assistant"), ("content", .null),
      ("tool_calls", .arr [record [("id", literal "a")], record [("id", literal "b")],
        record [("id", literal "c")]])],
    toolResult "a", toolResult "b", toolResult "c"]

def parallelBody : JsData ℕ := record [("messages", .arr parallelResults)]

def thirtyTokens : CompressOptions := { maxTokens := some 30, reserveTokens := some 0 }

end OmniRoute.ContextManager
