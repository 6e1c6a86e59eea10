import OmniRoute.ContextManager.Compress

/-!
# Loads of the layers

What each layer adds to the load of the messages and what it takes away. The notice adds the
characters of its text, and whatever it needs around it (`load_withNotice`). The repair only takes
away, and so does pruning: a placeholder is lighter than any image. The other layers write a text
for what they remove, and make a message heavier when that is shorter than the text.

**Main results (`load_rewritten_le`, `itemsLoad_repair_le`).** When no text that is cut or compressed
is shorter than what is written for it, no layer makes the messages heavier.
-/

namespace OmniRoute.ContextManager

open JsData List CodeUnits Nat

variable {N : Type} (num : JsNumbers N)

/-! ## The notice -/

/-- The characters that a notice brings with it. -/
def noticeGain (notice : CodeUnits) : List (JsData N) → ℕ
  | [] => load num (noticeMessage notice : JsData N)
  | first :: _ =>
    if isSystem first then
      if isMedia first then 0
      else
        match field first "content" with
        | some content => load num (noticedContent notice (some content))
        | none => fieldLoad num (ofString "content", .str notice)
    else load num (noticeMessage notice : JsData N) + 1

/-- The characters that it takes the place of. -/
def noticeLoss : List (JsData N) → ℕ
  | [] => 0
  | first :: _ =>
    if isSystem first && !isMedia first then ((field first "content").map (load num)).getD 0 else 0

theorem load_noticeInto (notice : CodeUnits) {first : JsData N} (h : isSystem first = true) :
    load num (noticeInto notice first) + noticeLoss num [first] =
      load num first + noticeGain num notice [first] := by
  unfold noticeInto
  simp only [noticeLoss, noticeGain, h, if_true, Bool.true_and]
  cases hmedia : isMedia first with
  | true =>
    rw [load_withField_media num content_not_media hmedia]
    rfl
  | false =>
    rw [Bool.not_false, if_pos rfl, if_neg Bool.false_ne_true]
    cases hcontent : field first "content" with
    | some content =>
      exact load_withField num hcontent content_not_media hmedia
    | none =>
      have hrole : ∃ role, field first "role" = some role := by
        rw [isSystem, Bool.or_eq_true] at h
        rcases h with h | h
        · exact ⟨_, isText_iff.1 h⟩
        · exact ⟨_, isText_iff.1 h⟩
      obtain ⟨role, hrole⟩ := hrole
      exact load_withField_new num hcontent hrole content_not_media hmedia

theorem load_withNotice (notice : CodeUnits) (l : List (JsData N)) :
    load num (.arr (withNotice notice l)) + noticeLoss num l =
      load num (.arr l) + noticeGain num notice l := by
  cases l with
  | nil =>
    rw [withNotice, load_arr, load_arr, itemsLoad_cons]
    simp only [noticeLoss, noticeGain, itemsLoad, map_nil, sum_nil]
    omega
  | cons first rest =>
    rw [withNotice, load_arr, load_arr]
    have hrest := one_le_itemsLoad num (cons_ne_nil first rest)
    split
    · next hsystem =>
      have hfirst := load_noticeInto num notice hsystem
      simp only [noticeLoss, noticeGain] at hfirst ⊢
      rw [itemsLoad_cons] at hrest ⊢
      rw [itemsLoad_cons]
      omega
    · next hsystem =>
      simp only [noticeLoss, noticeGain]
      rw [if_neg hsystem, if_neg (by simp [hsystem]), itemsLoad_cons]
      omega

/-! ## Repair -/

section Repair

theorem load_filterField_le (p : JsData N → Bool) (msg : JsData N) {name : String}
    (hname : ∀ key ∈ mediaFields, ofString key ≠ ofString name) :
    load num (filterField name p msg) ≤ load num msg := by
  unfold filterField
  cases h : elements (field msg name) with
  | none => exact le_refl _
  | some items =>
    exact load_withField_le num (elements_eq_some.1 h) hname
      (load_arr_mono num (itemsLoad_sublist num filter_sublist))

theorem toolCalls_not_media (key : String) (h : key ∈ mediaFields) :
    ofString key ≠ ofString "tool_calls" := by
  revert key
  decide

theorem load_filterCalls_le (ok : JsData N → Bool) (msg : JsData N) :
    load num (filterCalls num ok msg) ≤ load num msg :=
  (load_filterField_le num _ _ content_not_media).trans
    (load_filterField_le num _ _ toolCalls_not_media)

theorem load_withoutCalls_le (msg : JsData N) : load num (withoutCalls msg) ≤ load num msg :=
  (load_filterField_le num _ _ content_not_media).trans
    (load_filterField_le num _ _ toolCalls_not_media)

/-- A pass that makes at most one message of each, and no heavier one. -/
theorem itemsLoad_pass_le {f : JsData N → Option (JsData N) → List (JsData N)}
    (h : ∀ msg next, itemsLoad num (f msg next) ≤ load num msg + 1) (l : List (JsData N))
    (z : Option (JsData N)) : itemsLoad num (Lookahead.pass f l z) ≤ itemsLoad num l := by
  induction l with
  | nil => exact le_refl _
  | cons msg l ih =>
    rw [Lookahead.pass_cons, itemsLoad_append, itemsLoad_cons]
    exact Nat.add_le_add (h _ _) ih

theorem itemsLoad_singleton (msg : JsData N) : itemsLoad num [msg] = load num msg + 1 :=
  itemsLoad_cons num msg []

variable [DecidableEq N]

theorem load_dropOrphans_le (ids : List (JsData N)) {msg msg' : JsData N}
    (h : dropOrphans num ids msg = some msg') : load num msg' ≤ load num msg := by
  unfold dropOrphans at h
  split at h
  · cases h
  split at h
  · split at h
    · next content hcontent =>
      dsimp only at h
      split at h
      · obtain ⟨-, heq⟩ := Option.ite_none_left_eq_some.1 h
        cases heq
        exact load_withField_le num (elements_eq_some.1 hcontent) content_not_media
          (load_arr_mono num (itemsLoad_sublist num filter_sublist))
      · cases h
        exact le_refl _
    · cases h
      exact le_refl _
  · obtain ⟨-, heq⟩ := Option.ite_none_left_eq_some.1 h
    cases heq
    exact le_refl _

variable (l : List (JsData N))

theorem itemsLoad_fixToolPairs_le : itemsLoad num (fixToolPairs num l) ≤ itemsLoad num l := by
  unfold fixToolPairs
  dsimp only
  rw [filterMap_eq_flatMap_toList, Lookahead.flatMap_pass]
  refine itemsLoad_pass_le num (fun msg next => ?_) l none
  rw [flatMap_singleton]
  have hle : load num
      (if isRole msg "assistant" && next.isSome then
        filterCalls num (hasId (l.flatMap (answeredIds num))) msg else msg) ≤ load num msg := by
    split
    · exact load_filterCalls_le num _ msg
    · exact le_refl _
  cases hdrop : dropOrphans num _
      (if isRole msg "assistant" && next.isSome then
        filterCalls num (hasId (l.flatMap (answeredIds num))) msg else msg) with
  | none => exact zero_le _
  | some msg' =>
    rw [Option.toList_some, itemsLoad_singleton]
    exact Nat.succ_le_succ ((load_dropOrphans_le num _ hdrop).trans hle)

omit [DecidableEq N] in
theorem itemsLoad_fixToolAdjacency_le :
    itemsLoad num (fixToolAdjacency num l) ≤ itemsLoad num l := by
  unfold fixToolAdjacency
  split
  · exact le_refl _
  · refine itemsLoad_pass_le num (fun msg next => ?_) l none
    unfold adjacencyStep
    split
    · dsimp only
      split
      · split
        · exact zero_le _
        · rw [itemsLoad_singleton]
          exact Nat.succ_le_succ (load_filterCalls_le num _ msg)
      · exact (itemsLoad_singleton num msg).le
    · exact (itemsLoad_singleton num msg).le

omit [DecidableEq N] in
theorem itemsLoad_stripTrailing_le :
    itemsLoad num (stripTrailingAssistantOrphanToolUse l) ≤ itemsLoad num l := by
  rcases eq_nil_or_concat l with rfl | ⟨init, last, rfl⟩
  · exact le_refl _
  · rw [concat_eq_append]
    unfold stripTrailingAssistantOrphanToolUse
    rw [getLast?_concat]
    dsimp only
    split
    · exact le_refl _
    · split
      · exact le_refl _
      · rw [dropLast_concat, itemsLoad_append, itemsLoad_append, itemsLoad_singleton]
        refine Nat.add_le_add_left ?_ _
        split
        · rw [itemsLoad_singleton]
          exact Nat.succ_le_succ (load_withoutCalls_le num last)
        · exact zero_le _

/-- The repair makes nothing heavier. -/
theorem itemsLoad_repair_le : itemsLoad num (repair num l) ≤ itemsLoad num l :=
  (itemsLoad_stripTrailing_le num _).trans <| (itemsLoad_fixToolPairs_le num _).trans <|
    (itemsLoad_fixToolAdjacency_le num _).trans (itemsLoad_fixToolPairs_le num l)

end Repair

/-! ## Tool results -/

section Layers

theorem itemsLoad_forall₂_le {l l' : List (JsData N)}
    (h : List.Forall₂ (fun v v' => load num v' ≤ load num v) l l') :
    itemsLoad num l' ≤ itemsLoad num l := by
  induction h with
  | nil => exact le_refl _
  | cons h _ ih =>
    rw [itemsLoad_cons, itemsLoad_cons]
    exact Nat.add_le_add (Nat.succ_le_succ h) ih

theorem itemsLoad_map_le {f : JsData N → JsData N} {l : List (JsData N)}
    (h : ∀ v ∈ l, load num (f v) ≤ load num v) : itemsLoad num (l.map f) ≤ itemsLoad num l :=
  itemsLoad_forall₂_le num (List.forall₂_map_right_iff.2 (List.forall₂_same.2 h))

/-- A long content is no shorter than what is made of it. -/
def CutsShorter (maxChars : ℕ) (v : JsData N) : Prop :=
  ∀ s, field v "content" = some (.str s) → maxChars < s.length →
    load num (.str (cutText maxChars s)) ≤ load num (.str s)

/-- The tool results of a message, which are the message itself or some of its blocks. -/
def toolResultsOf (msg : JsData N) : List (JsData N) :=
  if isRole msg "tool" then [msg]
  else if isRole msg "user" then (parts msg).filter fun block => isType block "tool_result"
  else []

theorem load_trimContent_le {maxChars : ℕ} {v : JsData N} (h : CutsShorter num maxChars v) :
    load num (trimContent maxChars v) ≤ load num v := by
  unfold trimContent
  split
  · next s hs =>
    split
    · next hlong => exact load_withField_le num hs content_not_media (h s hs hlong)
    · exact le_refl _
  · exact le_refl _

variable {msg : JsData N}

theorem load_trimMessage_le {maxChars : ℕ}
    (h : ∀ v ∈ toolResultsOf msg, CutsShorter num maxChars v) :
    load num (trimMessage maxChars msg) ≤ load num msg := by
  unfold toolResultsOf at h
  unfold trimMessage
  split
  · next htool =>
    rw [if_pos htool] at h
    exact load_trimContent_le num (h msg mem_cons_self)
  · next htool =>
    rw [if_neg htool] at h
    split
    · next huser =>
      rw [if_pos huser] at h
      split
      · next blocks hblocks =>
        rw [parts, hblocks, Option.getD_some] at h
        refine load_withField_le num (elements_eq_some.1 hblocks) content_not_media
          (load_arr_mono num (itemsLoad_map_le num fun block hb => ?_))
        unfold trimBlock
        split
        · next hresult => exact load_trimContent_le num (h block (mem_filter.2 ⟨hb, hresult⟩))
        · exact le_refl _
      · exact le_refl _
    · exact le_refl _

variable {messages : List (JsData N)}

theorem itemsLoad_trimToolMessages_le {maxChars : ℕ}
    (h : ∀ msg ∈ messages, ∀ v ∈ toolResultsOf msg, CutsShorter num maxChars v) :
    itemsLoad num (trimToolMessages maxChars messages) ≤ itemsLoad num messages :=
  itemsLoad_map_le num fun msg hmsg => load_trimMessage_le num (h msg hmsg)

/-! ## Images -/

/-- The names of fields that hold media. -/
def bulkFields : List String :=
  ["image_url", "image", "source", "inlineData", "inline_data", "file_data", "file"]

variable {fields : List (String × JsData N)}

theorem field_record_none {name : String}
    (h : ∀ key ∈ fields.map Prod.fst, ofString name ≠ ofString key) :
    field (record fields) name = none := by
  show List.lookup _ (fields.map fun p => (ofString p.1, p.2)) = none
  induction fields with
  | nil => rfl
  | cons p fields ih =>
    rw [map_cons, lookup_cons_ite, if_neg (h p.1 mem_cons_self)]
    exact ih fun key hkey => h key (.tail _ hkey)

theorem isMedia_record (h : ∀ name ∈ bulkFields, ∀ key ∈ fields.map Prod.fst,
      ofString name ≠ ofString key) : isMedia (record fields) = false := by
  have hnone : ∀ name ∈ bulkFields, field (record fields) name = none := fun name hname =>
    field_record_none (h name hname)
  simp only [bulkFields, forall_mem_cons] at hnone
  obtain ⟨himageUrl, himage, hsource, hinlineData, hinline, hfileData, hfile, -⟩ := hnone
  simp [isMedia, isInlineBase64ImageBlock, isInlineBase64DocumentBlock,
    matchesOpenAIImageUrlShape, matchesAiSdkImageShape, matchesClaudeSourceShape,
    matchesGeminiInlineDataShape, matchesOpenAIFileShape, matchesClaudeDocumentShape, subfield,
    himageUrl, himage, hsource, hinlineData, hinline, hfileData, hfile, isInlineBase64ImageUrl,
    isInlineBase64DataUrl, orElseNullish, isString, isText]

theorem placeholder_keys : ∀ name ∈ bulkFields, ∀ key ∈ ["type", "text"],
    ofString name ≠ ofString key := by
  decide

/-- A record of a type and a text is no media. -/
theorem load_record (h : fields.map Prod.fst ⊆ ["type", "text"]) :
    load num (record fields) = 2 + ((fields.map fun p =>
      fieldLoad num (ofString p.1, p.2)).sum - 1) := by
  have hmedia : isMedia (record fields) = false :=
    isMedia_record fun name hname key hkey => placeholder_keys name hname key (h hkey)
  rw [record, load_obj num hmedia, map_map]
  rfl

/-- The characters of the fields of a placeholder. -/
theorem placeholder_lengths :
    JsonWalk.encodedStringLength (ofString "type") = 6 ∧
      JsonWalk.encodedStringLength (ofString "text") = 6 ∧
      JsonWalk.encodedStringLength (ofString "input_text") = 12 ∧
      JsonWalk.encodedStringLength
        (ofString "[Earlier image removed to fit context window]") = 47 := by
  decide +kernel

theorem load_placeholder_le (block : JsData N) :
    load num (replaceImageBlockWithPlaceholder num block) ≤ 4 * imageTokenEstimate := by
  obtain ⟨htype, htext, hinput, hplaceholder⟩ := placeholder_lengths
  unfold replaceImageBlockWithPlaceholder imageTokenEstimate
  split
  · rw [load_record]
    · simp [fieldLoad, literal, imageRemovedPlaceholder, load_str, htype, htext, hinput,
        hplaceholder]
    · simp
  · split
    · rw [load_record]
      · simp [fieldLoad, literal, imageRemovedPlaceholder, load_str, htext, hplaceholder]
      · simp
    · rw [load_record]
      · simp [fieldLoad, literal, imageRemovedPlaceholder, load_str, htype, htext, hplaceholder]
      · simp

theorem load_image {block : JsData N} (h : isInlineBase64ImageBlock block = true) :
    4 * imageTokenEstimate ≤ load num block := by
  cases block with
  | obj fields =>
    rw [load, extractImageTokens, if_pos h]
    exact le_add_left _ _
  | _ => cases h

/-- A message whose content array has become lighter part by part, and which has changed in nothing
else. -/
structure Lightened (msg msg' : JsData N) (content content' : List (JsData N)) : Prop where
  before : field msg "content" = some (.arr content)
  after : field msg' "content" = some (.arr content')
  parts : List.Forall₂ (fun part part' => load num part' ≤ load num part) content content'
  media : isMedia msg' = isMedia msg
  load_media : isMedia msg = true → load num msg' = load num msg
  load : isMedia msg = false →
    load num msg' + load num (.arr content) = load num msg + load num (.arr content')

def LightenedTo (msg msg' : JsData N) : Prop :=
  msg' = msg ∨ ∃ content content', Lightened num msg msg' content content'

theorem Lightened.refl {content : List (JsData N)} (h : field msg "content" = some (.arr content)) :
    Lightened num msg msg content content where
  before := h
  after := h
  parts := List.forall₂_same.2 fun _ _ => le_refl _
  media := rfl
  load_media _ := rfl
  load _ := rfl

theorem LightenedTo.load_le {msg' : JsData N} (h : LightenedTo num msg msg') :
    load num msg' ≤ load num msg := by
  rcases h with rfl | ⟨content, content', h⟩
  · exact le_refl _
  · cases hmedia : isMedia msg with
    | true => exact (h.load_media hmedia).le
    | false =>
      have hload := h.load hmedia
      have hle := load_arr_mono num (itemsLoad_forall₂_le num h.parts)
      omega

theorem forall₂_modify {α : Type*} {R : α → α → Prop} {l l' : List α} (h : List.Forall₂ R l l')
    {i : ℕ} {f : α → α} (hf : ∀ a a', l[i]? = some a → R a a' → R a (f a')) :
    List.Forall₂ R l (l'.modify i f) := by
  induction h generalizing i with
  | nil => cases i <;> exact .nil
  | cons hab h ih =>
    cases i with
    | zero => exact .cons (hf _ _ rfl hab) h
    | succ i => exact .cons hab (ih fun a a' ha => hf a a' ha)

/-- An image in a message. -/
def ImageAt (msg : JsData N) (i : ℕ) : Prop :=
  ∃ part, (parts msg)[i]? = some part ∧ isInlineBase64ImageBlock part = true

/-- A part that was an image is replaced by something lighter. -/
theorem LightenedTo.replacePart {msg' : JsData N} {i : ℕ} (himage : ImageAt msg i)
    (h : LightenedTo num msg msg') : LightenedTo num msg (replacePart num i msg') := by
  obtain ⟨part, hpart, himage⟩ := himage
  have harray : ∃ content content', Lightened num msg msg' content content' := by
    rcases h with rfl | h
    · cases hcontent : elements (field msg' "content") with
      | none =>
        rw [ContextManager.parts, hcontent] at hpart
        cases hpart
      | some content => exact ⟨content, content, .refl num (elements_eq_some.1 hcontent)⟩
    · exact h
  obtain ⟨content, content', h⟩ := harray
  rw [ContextManager.parts, elements_eq_some.2 h.before, Option.getD_some] at hpart
  have hparts := forall₂_modify h.parts (f := replaceImageBlockWithPlaceholder num) (i := i)
    fun a a' ha _ => by
      obtain rfl := Option.some.inj (ha.symm.trans hpart)
      exact (load_placeholder_le num a').trans (load_image num himage)
  refine .inr ⟨content, content'.modify i (replaceImageBlockWithPlaceholder num), ?_⟩
  unfold ContextManager.replacePart
  rw [elements_eq_some.2 h.after]
  dsimp only
  refine ⟨h.before, field_withField_self h.after, hparts, ?_, fun hmedia => ?_, fun hmedia => ?_⟩
  · exact (isMedia_withField content_not_media).trans h.media
  · exact (load_withField_media num content_not_media (h.media.trans hmedia)).trans
      (h.load_media hmedia)
  · have hold := h.load hmedia
    have hnew := load_withField num (w := .arr (content'.modify i
      (replaceImageBlockWithPlaceholder num))) h.after content_not_media (h.media.trans hmedia)
    omega

theorem imageAt_of_mem {location : ℕ × ℕ} (h : location ∈ imageLocations messages)
    (hmsg : messages[location.1]? = some msg) : ImageAt msg location.2 := by
  obtain ⟨⟨m, i⟩, hm, hlocation⟩ := mem_flatMap.1 h
  obtain ⟨⟨part, j⟩, hpart, heq⟩ := mem_filterMap.1 hlocation
  dsimp only at heq
  split at heq
  · next himage =>
    cases heq
    rw [mem_zipIdx_iff_getElem?] at hm hpart
    obtain rfl := Option.some.inj (hm.symm.trans hmsg)
    exact ⟨part, hpart, himage⟩
  · cases heq

theorem lightened_pruneLoop (fits : List (JsData N) → Bool) {locations : List (ℕ × ℕ)}
    (hlocations : ∀ l ∈ locations, l ∈ imageLocations messages) {next : List (JsData N)}
    (h : List.Forall₂ (LightenedTo num) messages next) (pruned : ℕ) :
    List.Forall₂ (LightenedTo num) messages (pruneLoop num fits locations next pruned).1 := by
  induction locations generalizing next pruned with
  | nil => exact h
  | cons location locations ih =>
    rw [pruneLoop]
    split
    · exact h
    · refine ih (fun l hl => hlocations l (.tail _ hl)) (forall₂_modify h fun a a' ha haa' => ?_) _
      exact haa'.replacePart num (imageAt_of_mem (hlocations location mem_cons_self) ha)

theorem itemsLoad_pruneOlderInlineImages_le (override : Option ℕ)
    (keepLatest targetTokens : Option ℚ) (messages : List (JsData N)) :
    itemsLoad num (pruneOlderInlineImages num override keepLatest targetTokens messages).1 ≤
      itemsLoad num messages := by
  unfold pruneOlderInlineImages
  dsimp only
  split
  · exact le_refl _
  · refine itemsLoad_forall₂_le num (List.Forall₂.imp (fun _ _ h => LightenedTo.load_le num h) ?_)
    refine lightened_pruneLoop num _ (fun l hl => mem_of_mem_take hl) ?_ 0
    exact List.forall₂_same.2 fun _ _ => .inl rfl

/-! ## Thinking -/

/-- A content array of nothing but thinking is no shorter than the text that takes its place. -/
def EmptiesShorter (msg : JsData N) : Prop :=
  ∀ content, field msg "content" = some (.arr content) → content.all isThinking = true →
    load num (literal "[thinking compressed]" : JsData N) ≤ load num (.arr content)

theorem load_dropThinking_le (h : EmptiesShorter num msg) :
    load num (dropThinking msg) ≤ load num msg := by
  unfold dropThinking
  split
  · next content hcontent =>
    rw [elements_eq_some] at hcontent
    dsimp only
    refine load_withField_le num hcontent content_not_media ?_
    split
    · next hempty =>
      refine h content hcontent (all_eq_true.2 fun block hb => ?_)
      simpa using filter_eq_nil_iff.1 (List.isEmpty_iff.1 hempty) block hb
    · exact load_arr_mono num (itemsLoad_sublist num filter_sublist)
  · exact le_refl _

theorem itemsLoad_compressThinking_le
    (h : ∀ msg rest, msg :: rest <:+ messages → isRole msg "assistant" = true →
      rest.any (isRole · "assistant") = true → EmptiesShorter num msg) :
    itemsLoad num (compressThinking messages) ≤ itemsLoad num messages := by
  induction messages with
  | nil => exact le_refl _
  | cons msg rest ih =>
    rw [compressThinking, itemsLoad_cons, itemsLoad_cons]
    refine Nat.add_le_add (Nat.succ_le_succ ?_)
      (ih fun m t ht => h m t (ht.trans (suffix_cons msg rest)))
    split
    · next hboth =>
      obtain ⟨hrole, hlater⟩ := Bool.and_eq_true_iff.1 hboth
      exact load_dropThinking_le num (h msg rest (suffix_refl _) hrole hlater)
    · exact le_refl _

end Layers

end OmniRoute.ContextManager
