import OmniRoute.ThinkTags.Stream

/-!
# Think tags in a whole text

`extractThinkTags` takes the first block out of a text, puts what was around it together, and begins
again, ten times at most. The stream parser goes from left to right. Both find the same blocks as
long as nothing that is put together makes an opening tag, which the stream parser does not see.

What is not white space is never lost, so a count of it tells how many blocks the extraction has
taken out (`extractLoop_solid`), and as many as the stream parser when the two agree.

**Main result (`extract_agrees`).** With at most ten blocks and no opening tag where the contents
are put together, the two agree; and when they agree it is so, but for texts of exactly ten blocks.
-/

namespace OmniRoute.ThinkTags

open TagScan CodeUnits List

def newline : CodeUnits := [10]

def maxIterations : ℕ := 10

/-- `content.indexOf(tag, start)` -/
def indexFrom (tag content : CodeUnits) (start : ℕ) : Option ℕ :=
  (indexOf tag (content.drop start)).map fun i => start + i

/-- The loop of `extractThinkTags`, with the turns that are left. -/
def extractLoop : ℕ → CodeUnits → CodeUnits → CodeUnits × CodeUnits
  | 0, reasoning, content => (reasoning, content)
  | turns + 1, reasoning, content =>
    match indexOf thinkOpen content with
    | none => (reasoning, content)
    | some openIdx =>
      match indexFrom thinkClose content openIdx with
      | none =>
        (reasoning ++ content.drop (openIdx + thinkOpen.length), content.take openIdx)
      | some closeIdx =>
        let thinkContent := (content.take closeIdx).drop (openIdx + thinkOpen.length)
        extractLoop turns
          (reasoning ++ ((if reasoning = [] then [] else newline) ++ thinkContent))
          (content.take openIdx ++ content.drop (closeIdx + thinkClose.length))

structure Extracted where
  reasoning : Option CodeUnits
  content : CodeUnits

def extractThinkTags (text : CodeUnits) : Extracted :=
  if indexOf thinkOpen text = none then ⟨none, text⟩
  else
    let (reasoning, content) := extractLoop maxIterations [] text
    ⟨orNull (trim reasoning), trim content⟩

/-- The texts of the blocks, as a scan from left to right finds them. -/
def reasoningBlocks (text : CodeUnits) : List CodeUnits :=
  everyOther false (pieces thinkTag false 0 text)

/-- The texts in front of the blocks and behind the last one. -/
def contentParts (text : CodeUnits) : List CodeUnits :=
  everyOther true (pieces thinkTag false 0 text)

/-- Blocks put behind a text, each with or without a newline in front of it. -/
inductive Joined : CodeUnits → List CodeUnits → CodeUnits → Prop
  | nil (text : CodeUnits) : Joined text [] text
  | plain {text block out : CodeUnits} {blocks : List CodeUnits}
    (h : Joined (text ++ block) blocks out) : Joined text (block :: blocks) out
  | apart {text block out : CodeUnits} {blocks : List CodeUnits} (hne : text ≠ [])
    (h : Joined (text ++ (newline ++ block)) blocks out) : Joined text (block :: blocks) out

/-- The same content and reasoning, up to white space at the ends and newlines between blocks. -/
structure Agree (text : CodeUnits) (extracted : Extracted) (streamed : Channels) : Prop where
  content : trim extracted.content = trim streamed.content
  reasoning : ∃ out, (reasoningBlocks text).flatten = streamed.reasoning ∧
    Joined [] (reasoningBlocks text) out ∧ trim (extracted.reasoning.getD []) = trim out

/-- The contents up to the tenth block make no opening tag. -/
def Seamless (text : CodeUnits) : Prop :=
  ¬ thinkOpen <:+: ((contentParts text).take maxIterations).flatten

def Aligned (text : CodeUnits) : Prop :=
  (reasoningBlocks text).length ≤ maxIterations ∧ Seamless text

/-- The text has exactly ten blocks, and the last one is closed. -/
def TenBlocks (text : CodeUnits) : Prop :=
  (pieces thinkTag false 0 text).length = 2 * maxIterations + 1

variable {text acc a b x y z : CodeUnits} {turns : ℕ}

/-! ## One turn -/

theorem thinkOpen_ne_nil : thinkOpen ≠ [] := by decide

theorem thinkClose_ne_nil : thinkClose ≠ [] := by decide

theorem clear_thinkOpen (y : CodeUnits) : Clear thinkClose thinkOpen y := by
  have hopen : thinkOpen = [60, 116, 104, 105, 110, 107, 62] := by decide
  have hclose : thinkClose = [60, 47, 116, 104, 105, 110, 107, 62] := by decide
  rw [hopen, hclose]
  simp [Clear]

/-- A text is without an opening tag, or what is in front of the first one and what is behind. -/
theorem thinkOpen_cases (content : CodeUnits) : indexOf thinkOpen content = none ∨
    ∃ a y, content = a ++ (thinkOpen ++ y) ∧ Clear thinkOpen a (thinkOpen ++ y) := by
  rcases pieces_cases (thinkTag_ne_nil false) content with ⟨h, -⟩ | ⟨a, y, h, hclear, -⟩
  · exact .inl h
  · exact .inr ⟨a, y, h, hclear⟩

theorem thinkClose_cases (content : CodeUnits) : indexOf thinkClose content = none ∨
    ∃ b z, content = b ++ (thinkClose ++ z) ∧ Clear thinkClose b (thinkClose ++ z) := by
  rcases pieces_cases (thinkTag_ne_nil true) content with ⟨h, -⟩ | ⟨a, y, h, hclear, -⟩
  · exact .inl h
  · exact .inr ⟨a, y, h, hclear⟩

theorem extractLoop_of_none (h : indexOf thinkOpen text = none) :
    extractLoop turns acc text = (acc, text) := by
  cases turns with
  | zero => rfl
  | succ turns => rw [extractLoop, h]

theorem indexFrom_thinkClose (a y : CodeUnits) :
    indexFrom thinkClose (a ++ (thinkOpen ++ y)) a.length =
      (indexOf thinkClose y).map fun i => a.length + (thinkOpen.length + i) := by
  rw [indexFrom, drop_left, indexOf_append (clear_thinkOpen y), Option.map_map]
  rfl

/-- A block that is not closed goes on to the end. -/
theorem extractLoop_unclosed (ha : Clear thinkOpen a (thinkOpen ++ y))
    (hy : indexOf thinkClose y = none) :
    extractLoop (turns + 1) acc (a ++ (thinkOpen ++ y)) = (acc ++ y, a) := by
  have hdrop : (a ++ (thinkOpen ++ y)).drop (a.length + thinkOpen.length) = y := by
    rw [← append_assoc, ← length_append, drop_left]
  rw [extractLoop, indexOf_clear thinkOpen_ne_nil ha]
  dsimp only
  rw [indexFrom_thinkClose, hy]
  dsimp only [Option.map_none]
  rw [hdrop, take_left]

/-- A closed block is taken out. -/
theorem extractLoop_closed (ha : Clear thinkOpen a (thinkOpen ++ (b ++ (thinkClose ++ z))))
    (hb : Clear thinkClose b (thinkClose ++ z)) :
    extractLoop (turns + 1) acc (a ++ (thinkOpen ++ (b ++ (thinkClose ++ z)))) =
      extractLoop turns (acc ++ ((if acc = [] then [] else newline) ++ b)) (a ++ z) := by
  have hthink : ((a ++ (thinkOpen ++ (b ++ (thinkClose ++ z)))).take
      (a.length + (thinkOpen.length + b.length))).drop (a.length + thinkOpen.length) = b := by
    have htext : a ++ (thinkOpen ++ (b ++ (thinkClose ++ z))) =
        (a ++ thinkOpen ++ b) ++ (thinkClose ++ z) := by simp only [append_assoc]
    have hlen : a.length + (thinkOpen.length + b.length) = (a ++ thinkOpen ++ b).length := by
      simp only [length_append]
      omega
    rw [htext, hlen, take_left, ← length_append, drop_left]
  have hdrop : (a ++ (thinkOpen ++ (b ++ (thinkClose ++ z)))).drop
      (a.length + (thinkOpen.length + b.length) + thinkClose.length) = z := by
    have htext : a ++ (thinkOpen ++ (b ++ (thinkClose ++ z))) =
        (a ++ thinkOpen ++ b ++ thinkClose) ++ z := by simp only [append_assoc]
    have hlen : a.length + (thinkOpen.length + b.length) + thinkClose.length =
        (a ++ thinkOpen ++ b ++ thinkClose).length := by
      simp only [length_append]
      omega
    rw [htext, hlen, drop_left]
  rw [extractLoop, indexOf_clear thinkOpen_ne_nil ha]
  dsimp only
  rw [indexFrom_thinkClose, indexOf_clear thinkClose_ne_nil hb]
  dsimp only [Option.map_some]
  rw [hthink, hdrop, take_left]

/-! ## What is not white space -/

theorem solid_thinkOpen : solid thinkOpen = 7 := by decide

theorem solid_thinkClose : solid thinkClose = 8 := by decide

/-- How many blocks the loop has taken out, and whether it ended in one that is not closed. -/
theorem extractLoop_solid (turns : ℕ) (acc content : CodeUnits) : ∃ closed open_,
    open_ ≤ 1 ∧
    solid acc + solid content = solid (extractLoop turns acc content).1 +
      solid (extractLoop turns acc content).2 + (15 * closed + 7 * open_) ∧
    (indexOf thinkOpen (extractLoop turns acc content).2 = none ∨ closed = turns ∧ open_ = 0) := by
  induction turns generalizing acc content with
  | zero => exact ⟨0, 0, Nat.zero_le _, rfl, .inr ⟨rfl, rfl⟩⟩
  | succ turns ih =>
    rcases thinkOpen_cases content with hnone | ⟨a, y, rfl, ha⟩
    · rw [extractLoop_of_none hnone]
      exact ⟨0, 0, Nat.zero_le _, rfl, .inl hnone⟩
    · rcases thinkClose_cases y with hy | ⟨b, z, rfl, hb⟩
      · rw [extractLoop_unclosed ha hy]
        refine ⟨0, 1, le_rfl, ?_, .inl ?_⟩
        · simp only [solid_append, solid_thinkOpen]
          omega
        · exact indexOf_eq_none_iff.2 (ha.not_infix thinkOpen_ne_nil)
      · rw [extractLoop_closed ha hb]
        obtain ⟨closed, open_, hle, hcount, hend⟩ :=
          ih (acc ++ ((if acc = [] then [] else newline) ++ b)) (a ++ z)
        have hsep : solid (if acc = [] then [] else newline) = 0 := by
          split <;> rfl
        refine ⟨closed + 1, open_, hle, ?_, ?_⟩
        · simp only [solid_append, hsep, solid_thinkOpen, solid_thinkClose] at hcount ⊢
          omega
        · rcases hend with hnone | ⟨heq, hzero⟩
          · exact .inl hnone
          · exact .inr ⟨by rw [heq], hzero⟩

/-- What is not white space is put together with the blocks. -/
theorem Joined.solid {blocks : List CodeUnits} {out : CodeUnits} (h : Joined text blocks out) :
    solid out = solid text + solid blocks.flatten := by
  have hnewline : CodeUnits.solid newline = 0 := by decide
  induction h with
  | nil text => rfl
  | plain _ ih =>
    rw [ih, flatten_cons, solid_append, solid_append, Nat.add_assoc]
  | apart _ _ ih =>
    rw [ih, flatten_cons, solid_append, solid_append, solid_append, hnewline]
    omega

/-! ## The blocks of a text -/

section

variable (text : CodeUnits)

/-- A text is without an opening tag, or ends in a block, or goes on behind a closed block. -/
theorem text_cases :
    (indexOf thinkOpen text = none ∧ contentParts text = [text] ∧ reasoningBlocks text = [] ∧
      (pieces thinkTag false 0 text).length = 1) ∨
    (∃ x y, text = x ++ (thinkOpen ++ y) ∧ indexOf thinkClose y = none ∧
      contentParts text = [x] ∧ reasoningBlocks text = [y] ∧
      (pieces thinkTag false 0 text).length = 2) ∨
    ∃ x b z, text = x ++ (thinkOpen ++ (b ++ (thinkClose ++ z))) ∧
      Clear thinkClose b (thinkClose ++ z) ∧ contentParts text = x :: contentParts z ∧
      reasoningBlocks text = b :: reasoningBlocks z ∧
      (pieces thinkTag false 0 text).length = (pieces thinkTag false 0 z).length + 2 := by
  unfold contentParts reasoningBlocks
  rcases pieces_cases (thinkTag_ne_nil false) text with ⟨hnone, h⟩ | ⟨x, y, htext, -, h⟩
  · rw [h]
    exact .inl ⟨hnone, rfl, rfl, rfl⟩
  · rw [h]
    rcases pieces_cases (thinkTag_ne_nil true) y with ⟨hy, h'⟩ | ⟨b, z, hy, hb, h'⟩
    · refine .inr (.inl ⟨x, y, htext, hy, ?_⟩)
      rw [show (!false) = true from rfl, h']
      exact ⟨rfl, rfl, rfl⟩
    · refine .inr (.inr ⟨x, b, z, by rw [htext, hy]; rfl, hb, ?_⟩)
      rw [show (!false) = true from rfl, h']
      exact ⟨rfl, rfl, rfl⟩

theorem pieces_length_pos : 0 < (pieces thinkTag false 0 text).length :=
  length_pos_iff.2 (pieces_ne_nil thinkTag_ne_nil text)

theorem solid_text :
    solid text = solid (contentParts text).flatten + solid (reasoningBlocks text).flatten +
      (15 * (((pieces thinkTag false 0 text).length - 1) / 2) +
        7 * (((pieces thinkTag false 0 text).length - 1) % 2)) := by
  induction hn : text.length using Nat.strong_induction_on generalizing text with
  | _ n ih =>
    rcases text_cases text with ⟨-, hparts, hblocks, hlen⟩ | ⟨x, y, htext, -, hparts, hblocks, hlen⟩ |
      ⟨x, b, z, htext, -, hparts, hblocks, hlen⟩
    · rw [hparts, hblocks, hlen]
      simp
    · rw [hparts, hblocks, hlen, htext]
      simp [solid_thinkOpen]
      omega
    · have hlt : z.length < n := by
        rw [← hn, htext]
        simp only [length_append]
        have hpos := length_pos_iff.2 thinkOpen_ne_nil
        omega
      have hz := ih z.length hlt z rfl
      have hpos := pieces_length_pos z
      rw [hparts, hblocks, hlen, htext]
      simp only [solid_append, flatten_cons, solid_thinkOpen, solid_thinkClose]
      omega

theorem clear_before_thinkOpen (h : ¬ thinkOpen <:+: a) (y : CodeUnits) :
    Clear thinkOpen a (thinkOpen ++ y) := by
  have hopen : thinkOpen = 60 :: [116, 104, 105, 110, 107, 62] := by decide
  rw [hopen] at h ⊢
  exact clear_before_tag (by decide) h

/-- As long as the contents make no opening tag the loop takes out the blocks of the text, and when
it has to stop before the last one something is left of it. -/
theorem extractLoop_blocks (turns : ℕ) (before text acc : CodeUnits)
    (h : ¬ thinkOpen <:+: before ++ ((contentParts text).take turns).flatten) :
    ((reasoningBlocks text).length ≤ turns → ∃ out, Joined acc (reasoningBlocks text) out ∧
      extractLoop turns acc (before ++ text) = (out, before ++ (contentParts text).flatten)) ∧
    (turns < (reasoningBlocks text).length →
      solid (before ++ (contentParts text).flatten) <
        solid (extractLoop turns acc (before ++ text)).2) := by
  induction turns generalizing before text acc with
  | zero =>
    have hsolid := solid_text text
    rcases text_cases text with ⟨-, hparts, hblocks, -⟩ | ⟨x, y, -, -, -, hblocks, hlen⟩ |
      ⟨x, b, z, -, -, -, hblocks, hlen⟩
    · rw [hblocks, hparts]
      refine ⟨fun _ => ⟨acc, .nil acc, ?_⟩, fun hlt => absurd hlt (Nat.not_lt_zero _)⟩
      rw [extractLoop, flatten_singleton]
    · rw [hlen] at hsolid
      refine ⟨fun hle => absurd hle (by rw [hblocks]; exact Nat.not_succ_le_zero _), fun _ => ?_⟩
      simp only [extractLoop, solid_append]
      omega
    · rw [hlen] at hsolid
      have hpos := pieces_length_pos z
      refine ⟨fun hle => absurd hle (by rw [hblocks]; exact Nat.not_succ_le_zero _), fun _ => ?_⟩
      simp only [extractLoop, solid_append]
      omega
  | succ turns ih =>
    rcases text_cases text with ⟨-, hparts, hblocks, -⟩ | ⟨x, y, htext, hy, hparts, hblocks, -⟩ |
      ⟨x, b, z, htext, hb, hparts, hblocks, -⟩
    · rw [hparts] at h
      rw [hblocks, hparts]
      simp only [take_succ_cons, take_nil, flatten_singleton] at h
      rw [extractLoop_of_none (indexOf_eq_none_iff.2 h), flatten_singleton]
      exact ⟨fun _ => ⟨acc, .nil acc, rfl⟩, fun hlt => absurd hlt (Nat.not_lt_zero _)⟩
    · rw [hparts] at h
      simp only [take_succ_cons, take_nil, flatten_singleton] at h
      have hloop := @extractLoop_unclosed acc (before ++ x) y turns (clear_before_thinkOpen h y) hy
      rw [append_assoc] at hloop
      rw [hblocks, hparts, htext, hloop, flatten_singleton]
      refine ⟨fun _ => ⟨acc ++ y, .plain (.nil _), rfl⟩, fun hlt => ?_⟩
      exact absurd hlt (by simp)
    · rw [hparts] at h
      rw [take_succ_cons, flatten_cons, ← append_assoc] at h
      have hclear := clear_before_thinkOpen
        (fun hin => h (hin.trans (List.prefix_append _ _).isInfix)) (b ++ (thinkClose ++ z))
      have hloop := @extractLoop_closed acc (before ++ x) b z turns hclear hb
      rw [append_assoc] at hloop
      obtain ⟨hall, hsome⟩ := ih (before ++ x) z
        (acc ++ ((if acc = [] then [] else newline) ++ b)) h
      rw [hblocks, hparts, htext, hloop, flatten_cons, ← append_assoc before x, length_cons]
      refine ⟨fun hle => ?_, fun hlt => hsome (Nat.lt_of_succ_lt_succ hlt)⟩
      obtain ⟨out, hjoined, heq⟩ := hall (Nat.le_of_succ_le_succ hle)
      refine ⟨out, ?_, heq⟩
      by_cases hacc : acc = []
      · rw [if_pos hacc, List.nil_append] at hjoined
        exact .plain hjoined
      · rw [if_neg hacc] at hjoined
        exact .apart hacc hjoined

/-! ## The two parsers -/

theorem splitThink_eq :
    splitThink text = ⟨(contentParts text).flatten, (reasoningBlocks text).flatten⟩ := rfl

end

theorem agree_of_aligned (h : Aligned text) :
    Agree text (extractThinkTags text) (splitThink text) := by
  obtain ⟨hten, hseamless⟩ := h
  obtain ⟨out, hjoined, heq⟩ := (extractLoop_blocks maxIterations [] text [] hseamless).1 hten
  rw [splitThink_eq]
  unfold extractThinkTags
  split
  · next hnone =>
    rw [List.nil_append, extractLoop_of_none hnone] at heq
    obtain ⟨rfl, htext⟩ := Prod.mk.inj heq
    exact ⟨congrArg trim htext, [], rfl, hjoined, rfl⟩
  · rw [List.nil_append] at heq
    rw [heq]
    refine ⟨trim_trim _, out, rfl, hjoined, ?_⟩
    rw [getD_orNull, trim_trim]

theorem aligned_of_agree (hexact : TenBlocks text → Seamless text)
    (h : Agree text (extractThinkTags text) (splitThink text)) : Aligned text := by
  obtain ⟨hcontent, out, -, hjoined, hreasoning⟩ := h
  rw [splitThink_eq] at hcontent
  unfold extractThinkTags at hcontent hreasoning
  split at hcontent
  · next hnone =>
    rcases text_cases text with ⟨-, hparts, hblocks, -⟩ | ⟨x, y, htext, -⟩ | ⟨x, b, z, htext, -⟩
    · refine ⟨by rw [hblocks]; exact Nat.zero_le _, ?_⟩
      unfold Seamless
      rw [hparts, take_of_length_le (by simp [maxIterations]), flatten_singleton]
      exact indexOf_eq_none_iff.1 hnone
    · refine absurd ?_ (indexOf_eq_none_iff.1 hnone)
      exact ⟨x, y, by rw [htext, append_assoc]⟩
    · refine absurd ?_ (indexOf_eq_none_iff.1 hnone)
      exact ⟨x, b ++ (thinkClose ++ z), by rw [htext, append_assoc]⟩
  · next hsome =>
    rw [if_neg hsome] at hreasoning
    dsimp only at hcontent hreasoning
    rw [trim_trim] at hcontent
    rw [getD_orNull, trim_trim] at hreasoning
    have hcount := congrArg solid hcontent
    rw [solid_trim, solid_trim] at hcount
    by_cases hseamless : Seamless text
    · refine ⟨not_lt.1 fun hlt => ?_, hseamless⟩
      have hleft := (extractLoop_blocks maxIterations [] text [] hseamless).2 hlt
      rw [List.nil_append, List.nil_append] at hleft
      omega
    · refine absurd (hexact ?_) hseamless
      have hin : thinkOpen <:+: (contentParts text).flatten := by
        have hprefix : ((contentParts text).take maxIterations).flatten <+:
            (contentParts text).flatten :=
          ⟨((contentParts text).drop maxIterations).flatten, by
            rw [← flatten_append, take_append_drop]⟩
        exact (not_not.1 hseamless).trans hprefix.isInfix
      obtain ⟨closed, open_, hle, hloop, hend⟩ := extractLoop_solid maxIterations [] text
      rcases hend with hnone | ⟨rfl, rfl⟩
      · -- the loop has come to its end, so it has left no opening tag
        have hall : thinkOpen.all (fun u => !isSpace u) = true := by decide
        have hspace : ∀ u ∈ thinkOpen, isSpace u = false := by simpa using hall
        refine absurd ?_ (indexOf_eq_none_iff.1 hnone)
        rw [← infix_trim_iff hspace, hcontent, infix_trim_iff hspace]
        exact hin
      · -- it has taken out ten blocks, and so many has the text
        have htext := solid_text text
        have hout := hjoined.solid
        have hblocks := congrArg solid hreasoning
        rw [solid_trim, solid_trim] at hblocks
        rw [solid_nil] at hloop hout
        unfold TenBlocks maxIterations at *
        have hpos := pieces_length_pos text
        omega

theorem extract_agrees (deltas : List CodeUnits) :
    (Aligned deltas.flatten → Agree deltas.flatten (extractThinkTags deltas.flatten)
      (streamDeltas (initThinkState false) deltas)) ∧
    ((TenBlocks deltas.flatten → Seamless deltas.flatten) →
      (Agree deltas.flatten (extractThinkTags deltas.flatten)
        (streamDeltas (initThinkState false) deltas) ↔ Aligned deltas.flatten)) := by
  rw [streamDeltas_eq_splitThink]
  exact ⟨agree_of_aligned, fun hexact => ⟨aligned_of_agree hexact, agree_of_aligned⟩⟩

instance (text : CodeUnits) : Decidable (Aligned text) :=
  inferInstanceAs (Decidable (_ ∧ ¬ _))

/-- A block that is cut in two on its way. -/
theorem extract_agrees_block :
    Agree [ofString "<thi", ofString "nk>a</think>b"].flatten
      (extractThinkTags [ofString "<thi", ofString "nk>a</think>b"].flatten)
      (streamDeltas (initThinkState false) [ofString "<thi", ofString "nk>a</think>b"]) :=
  (extract_agrees [ofString "<thi", ofString "nk>a</think>b"]).1 (by decide +kernel)

/-- Where the block is taken out, what is around it makes an opening tag. -/
theorem seam_disagrees :
    ¬ Agree (ofString "<th<think>x</think>ink>y")
      (extractThinkTags (ofString "<th<think>x</think>ink>y"))
      (streamDeltas (initThinkState false) [ofString "<th<think>x</think>ink>y"]) := by
  intro h
  have hcontent : trim (extractThinkTags (ofString "<th<think>x</think>ink>y")).content ≠
      trim (streamDeltas (initThinkState false) [ofString "<th<think>x</think>ink>y"]).content := by
    decide +kernel
  exact hcontent h.content

end OmniRoute.ThinkTags
