import OmniRoute.GeminiStream.Translate

/-!
# Reasoning and content of a text

What a text says, read at once: its content is what stands outside the reasoning elements, without
an ignorable prefix of an opening tag, and its reasoning is the bodies of the elements (`Splits`).
`Reading` is the same behind an opening tag.

**Main result (`consume_reads`).** Taking the reasoning out of a part, with what earlier parts left
in the buffers, sends and keeps exactly what the whole text says, if the end of the part decides
nothing (`ReadBefore`).
-/

namespace OmniRoute.GeminiStream

open Leftmost List Option

variable {N : Type}

/-! ## What a text says -/

/-- The content and the reasoning of a text. -/
inductive Splits : List Char → List Char → List Char → Prop
  | plain {text : List Char} (hopen : search reasoningTagAt text = none) : Splits text text []
  | pending {text before tagName body : List Char}
      (hopen : search reasoningTagAt text = some (before, tagName, body))
      (hclose : search (closeTagAt tagName) body = none) : Splits text (kept before) body
  | block {text before tagName afterOpen body rest content reasoning : List Char}
      (hopen : search reasoningTagAt text = some (before, tagName, afterOpen))
      (hclose : search (closeTagAt tagName) afterOpen = some (body, rest))
      (hrest : Splits rest content reasoning) :
      Splits text (kept before ++ content) (body ++ reasoning)

/-- The content and the reasoning of a text that begins inside an element or outside. -/
inductive Reading : Option (List Char) → List Char → List Char → List Char → Prop
  | outside {text content reasoning : List Char} (h : Splits text content reasoning) :
      Reading none text content reasoning
  | pending {tagName text : List Char} (hclose : search (closeTagAt tagName) text = none) :
      Reading (some tagName) text [] text
  | closed {tagName text body rest content reasoning : List Char}
      (hclose : search (closeTagAt tagName) text = some (body, rest))
      (hrest : Splits rest content reasoning) :
      Reading (some tagName) text content (body ++ reasoning)

variable {before tagName text : List Char}

theorem splits_of_reading {afterOpen content reasoning : List Char}
    (hopen : search reasoningTagAt text = some (before, tagName, afterOpen))
    (h : Reading (some tagName) afterOpen content reasoning) :
    Splits text (kept before ++ content) reasoning := by
  cases h with
  | pending hclose =>
    rw [append_nil]
    exact .pending hopen hclose
  | closed hclose hrest => exact .block hopen hclose hrest

theorem Splits.unique {c₁ r₁ c₂ r₂ : List Char} (h₁ : Splits text c₁ r₁) (h₂ : Splits text c₂ r₂) :
    c₁ = c₂ ∧ r₁ = r₂ := by
  induction h₁ generalizing c₂ r₂ with
  | plain hopen =>
    cases h₂ with
    | plain _ => exact ⟨rfl, rfl⟩
    | pending hopen' _ => rw [hopen] at hopen'; cases hopen'
    | block hopen' _ _ => rw [hopen] at hopen'; cases hopen'
  | pending hopen hclose =>
    cases h₂ with
    | plain hopen' => rw [hopen] at hopen'; cases hopen'
    | pending hopen' _ => rw [hopen] at hopen'; cases hopen'; exact ⟨rfl, rfl⟩
    | block hopen' hclose' _ =>
      rw [hopen] at hopen'
      cases hopen'
      rw [hclose] at hclose'
      cases hclose'
  | block hopen hclose _ ih =>
    cases h₂ with
    | plain hopen' => rw [hopen] at hopen'; cases hopen'
    | pending hopen' hclose' =>
      rw [hopen] at hopen'
      cases hopen'
      rw [hclose] at hclose'
      cases hclose'
    | block hopen' hclose' hrest' =>
      rw [hopen] at hopen'
      cases hopen'
      rw [hclose] at hclose'
      cases hclose'
      obtain ⟨rfl, rfl⟩ := ih hrest'
      exact ⟨rfl, rfl⟩

theorem Reading.unique {active : Option (List Char)} {c₁ r₁ c₂ r₂ : List Char}
    (h₁ : Reading active text c₁ r₁) (h₂ : Reading active text c₂ r₂) : c₁ = c₂ ∧ r₁ = r₂ := by
  cases h₁ with
  | outside h =>
    cases h₂ with
    | outside h' => exact h.unique h'
  | pending hclose =>
    cases h₂ with
    | pending _ => exact ⟨rfl, rfl⟩
    | closed hclose' _ => rw [hclose] at hclose'; cases hclose'
  | closed hclose hrest =>
    cases h₂ with
    | pending hclose' => rw [hclose] at hclose'; cases hclose'
    | closed hclose' hrest' =>
      rw [hclose] at hclose'
      cases hclose'
      obtain ⟨rfl, rfl⟩ := hrest.unique hrest'
      exact ⟨rfl, rfl⟩

/-! ## Tags take characters -/

theorem reads_afterFolded (literal : List Char) : Reads (afterFolded literal) literal.length := by
  constructor
  · intro l r h
    induction literal generalizing l with
    | nil =>
      cases h
      exact (Nat.zero_add _).symm
    | cons c literal ih =>
      cases l with
      | nil => cases h
      | cons d l =>
        rw [afterFolded] at h
        split at h
        · rw [length_cons, ih l h, length_cons]
          omega
        · cases h
  · intro l z hlen
    induction literal generalizing l with
    | nil => rfl
    | cons c literal ih =>
      cases l with
      | nil => exact absurd hlen (Nat.not_succ_le_zero _)
      | cons d l =>
        rw [cons_append, afterFolded, afterFolded]
        split
        · exact ih l (Nat.le_of_succ_le_succ hlen)
        · rfl

theorem reads_closeTagAt (tagName : List Char) :
    Reads (closeTagAt tagName) (closeTag tagName).length := reads_afterFolded _

variable {rest : List Char}

theorem length_afterLastNewline (h : afterLastNewline text = some rest) :
    rest.length < text.length := by
  induction text with
  | nil => cases h
  | cons c text ih =>
    rcases or_eq_some_iff.1 h with h | ⟨-, h⟩
    · exact Nat.lt_succ_of_lt (ih h)
    · split at h
      · cases h
        exact Nat.lt_succ_self _
      · cases h

theorem length_tagEnd (h : tagEnd text = some rest) : rest.length < text.length := by
  cases text with
  | nil => cases h
  | cons c text =>
    rw [tagEnd] at h
    split at h
    · cases h
      exact Nat.lt_succ_self _
    · split at h
      · have hle := (dropWhile_sublist (fun d => d ≠ '>') (l := c :: text)).length_le
        split at h
        · next hdrop =>
          cases h
          rw [hdrop] at hle
          exact hle
        · exact length_afterLastNewline h
      · cases h

theorem length_reasoningTagAt (h : reasoningTagAt text = some (tagName, rest)) :
    rest.length < text.length := by
  unfold reasoningTagAt at h
  split at h
  · obtain ⟨name, -, h⟩ := exists_of_findSome?_eq_some h
    obtain ⟨afterName, hname, h⟩ := bind_eq_some_iff.1 h
    obtain ⟨rest', hend, heq⟩ := map_eq_some_iff.1 h
    obtain ⟨-, rfl⟩ := Prod.mk.inj heq
    have hlen := (reads_afterFolded name).length _ _ hname
    have hlt := length_tagEnd hend
    rw [length_cons]
    omega
  · cases h

theorem length_search_open (h : search reasoningTagAt text = some (before, tagName, rest)) :
    rest.length < text.length := by
  obtain ⟨z, rfl, -, hz⟩ := search_eq_some h
  have hlt := length_reasoningTagAt hz
  rw [length_append]
  omega

theorem length_search_close {body : List Char}
    (h : search (closeTagAt tagName) text = some (body, rest)) : rest.length < text.length := by
  obtain ⟨z, rfl, -, hz⟩ := search_eq_some h
  have hlen := (reads_closeTagAt tagName).length _ _ hz
  have hpos : 0 < (closeTag tagName).length := Nat.succ_pos _
  rw [length_append]
  omega

theorem exists_splits (text : List Char) : ∃ content reasoning, Splits text content reasoning := by
  induction hn : text.length using Nat.strong_induction_on generalizing text with
  | _ n ih =>
    cases hopen : search reasoningTagAt text with
    | none => exact ⟨_, _, .plain hopen⟩
    | some found =>
      obtain ⟨before, tagName, afterOpen⟩ := found
      cases hclose : search (closeTagAt tagName) afterOpen with
      | none => exact ⟨_, _, .pending hopen hclose⟩
      | some inner =>
        obtain ⟨body, rest⟩ := inner
        have hlt : rest.length < n :=
          hn ▸ (length_search_close hclose).trans (length_search_open hopen)
        obtain ⟨content, reasoning, hrest⟩ := ih rest.length hlt rest rfl
        exact ⟨_, _, .block hopen hclose hrest⟩

theorem exists_reading (active : Option (List Char)) (text : List Char) :
    ∃ content reasoning, Reading active text content reasoning := by
  cases active with
  | none =>
    obtain ⟨content, reasoning, h⟩ := exists_splits text
    exact ⟨content, reasoning, .outside h⟩
  | some tagName =>
    cases hclose : search (closeTagAt tagName) text with
    | none => exact ⟨_, _, .pending hclose⟩
    | some inner =>
      obtain ⟨content, reasoning, h⟩ := exists_splits inner.2
      exact ⟨_, _, .closed hclose h⟩

/-! ## Closing tags -/

theorem eq_lt_of_toLower {c : Char} (h : c.toLower = '<') : c = '<' := by
  by_cases hup : c.val ≥ 'A'.val ∧ c.val ≤ 'Z'.val
  · have hv : c.toLower.val.toNat = 60 := by
      rw [h]
      rfl
    rw [Char.toLower, dif_pos hup] at hv
    have hle : 65 ≤ c.val.toNat ∧ c.val.toNat ≤ 90 := hup
    have hadd : (c.val.toNat + 32) % 4294967296 = 60 := by
      rw [← hv]
      exact (UInt32.toNat_add c.val 32).symm
    omega
  · rw [Char.toLower, dif_neg hup] at h
    exact h

/-- A name of an element: nothing in it looks like a tag or changes its length in lower case. -/
structure IsTagName (tagName : List Char) : Prop where
  noLt : '<' ∉ tagName
  lower : (toLowerCase tagName).length = tagName.length

theorem toLowerCase_append (a b : List Char) :
    toLowerCase (a ++ b) = toLowerCase a ++ toLowerCase b := flatMap_append

theorem length_le_toLowerCase (text : List Char) : text.length ≤ (toLowerCase text).length := by
  induction text with
  | nil => exact Nat.le_refl _
  | cons c text ih =>
    rw [← singleton_append, toLowerCase_append, length_append, length_append]
    refine Nat.add_le_add ?_ ih
    rw [toLowerCase, flatMap_singleton]
    split
    · exact Nat.le_refl _
    · split
      · exact Nat.le_succ _
      · exact Nat.le_refl _

/-- A name as it is written is a name if the literal is. -/
theorem isTagName_take {literal : List Char}
    (hliteral : ∀ c ∈ literal, c ≠ '<' ∧ c.toLower ≠ '\u212A' ∧ c.toLower ≠ '\u0130')
    (h : afterFolded literal text ≠ none) : IsTagName (text.take literal.length) := by
  induction literal generalizing text with
  | nil => exact ⟨not_mem_nil, rfl⟩
  | cons c literal ih =>
    cases text with
    | nil => exact ⟨not_mem_nil, rfl⟩
    | cons d text =>
      rw [afterFolded] at h
      split at h
      · next hcd =>
        obtain ⟨hc, hk, hi⟩ := hliteral c mem_cons_self
        obtain ⟨hlt, hlower⟩ := ih (fun e he => hliteral e (mem_cons_of_mem c he)) h
        have hdk : d.toNat ≠ 0x212A := by
          intro hd
          obtain rfl : d = '\u212A' := Char.toNat_inj.1 hd
          exact hk hcd
        have hdi : d.toNat ≠ 0x130 := by
          intro hd
          obtain rfl : d = '\u0130' := Char.toNat_inj.1 hd
          exact hi hcd
        rw [length_cons, take_succ_cons]
        refine ⟨?_, ?_⟩
        · rw [mem_cons]
          rintro (rfl | hmem)
          · exact hc (eq_lt_of_toLower hcd)
          · exact hlt hmem
        · rw [← singleton_append, toLowerCase_append, length_append, hlower,
            length_append, toLowerCase, flatMap_singleton, if_neg hdk, if_neg hdi]
          rfl
      · exact absurd rfl h

theorem isTagName_search (h : search reasoningTagAt text = some (before, tagName, rest)) :
    IsTagName tagName := by
  obtain ⟨z, -, -, hz⟩ := search_eq_some h
  unfold reasoningTagAt at hz
  split at hz
  · obtain ⟨name, hname, hz⟩ := exists_of_findSome?_eq_some hz
    obtain ⟨afterName, hafter, hz⟩ := bind_eq_some_iff.1 hz
    obtain ⟨_, _, heq⟩ := map_eq_some_iff.1 hz
    obtain ⟨rfl, -⟩ := Prod.mk.inj heq
    have hall : (reasoningTagNames.all fun name => name.all fun c =>
        c != '<' && c.toLower != '\u212A' && c.toLower != '\u0130') = true := by decide +kernel
    have hnames : ∀ name ∈ reasoningTagNames, ∀ c ∈ name,
        c ≠ '<' ∧ c.toLower ≠ '\u212A' ∧ c.toLower ≠ '\u0130' := by simpa [and_assoc] using hall
    exact isTagName_take (hnames name hname) (by rw [hafter]; exact some_ne_none _)
  · cases hz

/-- A literal without `<` that matches over a `<` is matched before it. -/
theorem afterFolded_lt {literal a w : List Char} (hlt : '<' ∉ literal)
    (h : afterFolded literal (a ++ '<' :: w) ≠ none) : afterFolded literal a ≠ none := by
  induction literal generalizing a with
  | nil => exact some_ne_none _
  | cons c literal ih =>
    cases a with
    | nil =>
      rw [nil_append, afterFolded] at h
      split at h
      · next hc => exact absurd (mem_cons.2 (.inl (eq_lt_of_toLower hc).symm)) hlt
      · exact absurd rfl h
    | cons d a =>
      rw [cons_append, afterFolded] at h
      rw [afterFolded]
      split
      · next hcd =>
        rw [if_pos hcd] at h
        exact ih (fun hmem => hlt (mem_cons_of_mem c hmem)) h
      · next hcd =>
        rw [if_neg hcd] at h
        exact absurd rfl h

/-- A text without a closing tag stays without one up to the next `<`. -/
theorem clear_close {a : List Char} (hlt : '<' ∉ tagName) (h : search (closeTagAt tagName) a = none)
    (w : List Char) : Clear (closeTagAt tagName) a ('<' :: w) := by
  induction a with
  | nil => trivial
  | cons c a ih =>
    have hclear := clear_of_search_none (a := c :: a) (z := []) (by rw [append_nil]; exact h)
    rw [Clear, append_nil] at hclear
    have hrest := search_tail_none (m := closeTagAt tagName) (a := [c]) (z := a) h
    refine ⟨?_, ih hrest⟩
    by_contra hmatch
    rw [closeTagAt, closeTag, append_assoc, cons_append, afterFolded] at hmatch
    split at hmatch
    · next hc =>
      refine absurd hclear.1 ?_
      rw [closeTagAt, closeTag, append_assoc, cons_append, afterFolded, if_pos hc]
      refine afterFolded_lt ?_ hmatch
      intro hmem
      rcases mem_append.1 hmem with hmem | hmem
      · rw [mem_singleton] at hmem
        cases hmem
      · rcases mem_append.1 hmem with hmem | hmem
        · exact hlt hmem
        · rw [mem_singleton] at hmem
          cases hmem
    · exact absurd rfl hmatch

/-! ## What the end of a part decides -/

/-- Text that is sent, and text that is held back: the first opening tag begins behind what is sent,
and leaving out an ignorable prefix is decided the same way for the whole text. -/
structure PlainCut (raw sent held later : List Char) : Prop where
  undropped : search reasoningTagAt (raw ++ (held ++ later)) = none → sent = raw
  behind : ∀ before tagName rest,
    search reasoningTagAt (raw ++ (held ++ later)) = some (before, tagName, rest) →
      ∃ b, before = raw ++ b ∧ kept before = sent ++ kept b

/-- No complete call ends the text, and the beginning of one loses no zero-width characters. -/
structure CallFree (parse : List Char → Option (Json N)) (text : List Char) : Prop where
  incomplete : ∀ name args, parseTextualToolCallCandidate parse text ≠ some (.complete name args)
  unchanged : parseTextualToolCallCandidate parse text ≠ none →
    stripObfuscationZeroWidth text = text

section Uncut

variable (parse : List Char → Option (Json N)) (toolCallBuffer later : List Char)

/-- Text outside an element that is read before `later`: every tag in it is complete and stays as
it is, nothing is sent past a buffered call, and what is returned makes no call. -/
inductive Uncut : List Char → Prop
  | nil : Uncut []
  | plain {text : List Char} (hopen : search reasoningTagAt text = none)
      (htrail : trailingReasoningTagPrefix text = none) (hcut : PlainCut text text [] later)
      (hcall : text ≠ [] → CallFree parse (toolCallBuffer ++ text)) : Uncut text
  | held {text before held : List Char} (hopen : search reasoningTagAt text = none)
      (htrail : trailingReasoningTagPrefix text = some (before, held))
      (hcut : PlainCut before (kept before) held later)
      (hcall : kept before ≠ [] → CallFree parse (toolCallBuffer ++ kept before)) : Uncut text
  | pending {text before tagName afterOpen : List Char}
      (hopen : search reasoningTagAt text = some (before, tagName, afterOpen))
      (hlater : search reasoningTagAt (text ++ later) = some (before, tagName, afterOpen ++ later))
      (hordered : toolCallBuffer = [] ∨ kept before = [])
      (hclose : search (closeTagAt tagName) afterOpen = none) : Uncut text
  | block {text before tagName afterOpen body rest : List Char}
      (hopen : search reasoningTagAt text = some (before, tagName, afterOpen))
      (hlater : search reasoningTagAt (text ++ later) = some (before, tagName, afterOpen ++ later))
      (hordered : toolCallBuffer = [] ∨ kept before = [])
      (hclose : search (closeTagAt tagName) afterOpen = some (body, rest))
      (hrest : Uncut rest) : Uncut text

/-- The same for text that may begin inside an element. -/
def UncutFrom : Option (List Char) → List Char → Prop
  | none, text => Uncut parse toolCallBuffer later text
  | some tagName, text => ∀ body rest, search (closeTagAt tagName) text = some (body, rest) →
      Uncut parse toolCallBuffer later rest

end Uncut

/-- What `Uncut` says of the first tag of a text. -/
theorem Uncut.opened {parse : List Char → Option (Json N)}
    {toolCallBuffer later afterOpen : List Char} (h : Uncut parse toolCallBuffer later text)
    (hopen : search reasoningTagAt text = some (before, tagName, afterOpen)) :
    search reasoningTagAt (text ++ later) = some (before, tagName, afterOpen ++ later) ∧
      (toolCallBuffer = [] ∨ kept before = []) ∧
      ∀ body rest, search (closeTagAt tagName) afterOpen = some (body, rest) →
        Uncut parse toolCallBuffer later rest := by
  cases h with
  | nil => cases hopen
  | plain hopen' => rw [hopen] at hopen'; cases hopen'
  | held hopen' => rw [hopen] at hopen'; cases hopen'
  | pending hopen' hlater hordered hclose =>
    rw [hopen] at hopen'
    cases hopen'
    refine ⟨hlater, hordered, fun body rest h => ?_⟩
    rw [hclose] at h
    cases h
  | block hopen' hlater hordered hclose hrest =>
    rw [hopen] at hopen'
    cases hopen'
    refine ⟨hlater, hordered, fun body rest h => ?_⟩
    rw [hclose] at h
    cases h
    exact hrest

theorem splits_plainCut {raw sent held later content reasoning : List Char}
    (hcut : PlainCut raw sent held later) (h : Splits (held ++ later) content reasoning) :
    Splits (raw ++ (held ++ later)) (sent ++ content) reasoning := by
  cases hopen : search reasoningTagAt (raw ++ (held ++ later)) with
  | none =>
    rw [hcut.undropped hopen]
    obtain ⟨rfl, rfl⟩ := h.unique (.plain (search_tail_none hopen))
    exact .plain hopen
  | some found =>
    obtain ⟨before, tagName, rest⟩ := found
    obtain ⟨b, rfl, hkept⟩ := hcut.behind before tagName rest hopen
    have htail := search_tail hopen
    obtain ⟨c, r, hreading⟩ := exists_reading (some tagName) rest
    obtain ⟨rfl, rfl⟩ := h.unique (splits_of_reading htail hreading)
    have hall := splits_of_reading hopen hreading
    rw [hkept, append_assoc] at hall
    exact hall

/-! ## The state between two parts -/

/-- What the rest of a text comes to, read behind what the buffers hold. -/
def Resumes (s : State) (later content reasoning : List Char) : Prop :=
  Reading s.activeTextualReasoningTag
    (s.textualReasoningContentBuffer ++ (s.textualReasoningTagBuffer ++ later)) content reasoning

/-- Only an open element has a body, and its closing tag has not been seen. -/
structure Held (s : State) : Prop where
  outside : s.activeTextualReasoningTag = none → s.textualReasoningContentBuffer = []
  inside : ∀ tagName, s.activeTextualReasoningTag = some tagName → IsTagName tagName ∧
    search (closeTagAt tagName)
      (s.textualReasoningContentBuffer ++ s.textualReasoningTagBuffer) = none

theorem textOf_emitTextDelta (field other : Field) (content : List Char) (s : State) :
    textOf other (emitTextDelta field content s : List (Delta N) × State).1 =
      if field = other then content else [] := by
  unfold emitTextDelta
  split
  · next h =>
    rw [h]
    split <;> rfl
  · exact append_nil _

/-- Sending text touches no buffer. -/
theorem emitTextDelta_state (field : Field) (content : List Char) (s : State) :
    ∃ hasEmittedContent, (emitTextDelta field content s : List (Delta N) × State).2 =
      { s with hasEmittedContent } := by
  unfold emitTextDelta
  split
  · exact ⟨s.hasEmittedContent, rfl⟩
  · exact ⟨_, rfl⟩

/-! ## One part -/

/-- What is sent and kept of a text is what the text says. -/
structure Accounts (parse : List Char → Option (Json N)) (toolCallBuffer : List Char)
    (active : Option (List Char)) (text later : List Char) (r : Consumed N) : Prop where
  held : Held r.state
  buffer : r.state.textualToolCallBuffer = toolCallBuffer
  reading : ∀ content reasoning, Resumes r.state later content reasoning →
    Reading active (text ++ later) (textOf .content r.deltas ++ (r.text ++ content))
      (textOf .reasoningContent r.deltas ++ reasoning)
  call : r.text ≠ [] → CallFree parse (toolCallBuffer ++ r.text)
  ordered : toolCallBuffer = [] ∨ textOf .content r.deltas = []

section Part

variable {parse : List Char → Option (Json N)} {toolCallBuffer later : List Char}

variable {tagName text : List Char}

/-- The body of an element is sent before what follows. -/
theorem Accounts.closed {body rest : List Char} {r : Consumed N} {sent : List (Delta N)}
    (h : Accounts parse toolCallBuffer none rest later r)
    (hclose : search (closeTagAt tagName) text = some (body, rest))
    (hcontent : textOf .content sent = []) (hreasoning : textOf .reasoningContent sent = body) :
    Accounts parse toolCallBuffer (some tagName) text later (r.after sent) := by
  refine ⟨h.held, h.buffer, ?_, h.call, ?_⟩
  · intro content reasoning hresumes
    show Reading _ _ (textOf .content (sent ++ r.deltas) ++ (r.text ++ content))
      (textOf .reasoningContent (sent ++ r.deltas) ++ reasoning)
    rw [textOf_append, textOf_append, hcontent, hreasoning, append_assoc body]
    cases h.reading content reasoning hresumes with
    | outside hrest => exact .closed (search_extend (reads_closeTagAt tagName) hclose later) hrest
  · show _ ∨ textOf .content (sent ++ r.deltas) = []
    rw [textOf_append, hcontent]
    exact h.ordered

/-- The text before an element is sent before the element. -/
theorem Accounts.opened {before afterOpen : List Char} {r : Consumed N} {sent : List (Delta N)}
    (h : Accounts parse toolCallBuffer (some tagName) afterOpen later r)
    (hopen : search reasoningTagAt (text ++ later) = some (before, tagName, afterOpen ++ later))
    (hordered : toolCallBuffer = [] ∨ kept before = [])
    (hcontent : textOf .content sent = kept before)
    (hreasoning : textOf .reasoningContent sent = []) :
    Accounts parse toolCallBuffer none text later (r.after sent) := by
  refine ⟨h.held, h.buffer, ?_, h.call, ?_⟩
  · intro content reasoning hresumes
    show Reading _ _ (textOf .content (sent ++ r.deltas) ++ (r.text ++ content))
      (textOf .reasoningContent (sent ++ r.deltas) ++ reasoning)
    rw [textOf_append, textOf_append, hcontent, hreasoning, append_assoc (kept before)]
    exact .outside (splits_of_reading hopen (h.reading content reasoning hresumes))
  · show _ ∨ textOf .content (sent ++ r.deltas) = []
    rw [textOf_append, hcontent]
    rcases hordered with hnil | hnil
    · exact .inl hnil
    · rw [hnil]
      exact h.ordered

/-- A text that ends inside an element is kept. -/
theorem accounts_bufferReasoning {buffered : List Char} {s : State}
    (hs : s.activeTextualReasoningTag = some tagName) (hname : IsTagName tagName)
    (htag : s.textualReasoningTagBuffer = [])
    (hclose : search (closeTagAt tagName) buffered = none) :
    Accounts parse s.textualToolCallBuffer (some tagName) buffered later
      (bufferReasoning tagName buffered s : Consumed N) := by
  have hkept : ∀ t : State, t.activeTextualReasoningTag = some tagName →
      t.textualReasoningContentBuffer ++ t.textualReasoningTagBuffer = buffered →
      t.textualToolCallBuffer = s.textualToolCallBuffer →
      Accounts parse s.textualToolCallBuffer (some tagName) buffered later
        ({ deltas := [], state := t, text := [] } : Consumed N) := by
    intro t ht hbuffered hcall
    refine ⟨⟨fun hnone => ?_, fun tagName' hactive => ?_⟩, hcall, fun content reasoning h => ?_,
      fun h => absurd rfl h, .inr rfl⟩
    · cases hnone.symm.trans ht
    · obtain rfl := some.inj (ht.symm.trans hactive)
      exact ⟨hname, by rw [hbuffered, hclose]⟩
    · unfold Resumes at h
      rwa [ht, ← append_assoc, hbuffered] at h
  unfold bufferReasoning
  cases htrail : trailingReasoningCloseTagPrefix tagName buffered with
  | none => exact hkept _ hs (by rw [htag, append_nil]) rfl
  | some found =>
    obtain ⟨body, held⟩ := found
    obtain ⟨hsplit, -⟩ := filter_eq_some_iff.1 htrail
    obtain ⟨heq, -, -⟩ := lastMatch_eq_some hsplit
    exact hkept _ hs heq.symm rfl

/-- A text without a tag is returned up to what is held back. -/
theorem accounts_returnPlain {remaining : List Char} {s : State} (hs : Held s)
    (hactive : s.activeTextualReasoningTag = none) (htag : s.textualReasoningTagBuffer = [])
    (hopen : search reasoningTagAt remaining = none)
    (hcut : Uncut parse s.textualToolCallBuffer later remaining) :
    Accounts parse s.textualToolCallBuffer none remaining later
      (returnPlain remaining s : Consumed N) := by
  have hbody := hs.outside hactive
  unfold returnPlain
  cases hcut with
  | nil =>
    rw [show trailingReasoningTagPrefix [] = none from rfl]
    refine ⟨hs, rfl, fun content reasoning h => ?_, fun h => absurd rfl h, .inr rfl⟩
    unfold Resumes at h
    dsimp only at h
    rw [hactive, hbody, htag] at h
    exact h
  | plain _ htrail hplain hcall =>
    rw [htrail]
    refine ⟨hs, rfl, fun content reasoning h => ?_, hcall, .inr rfl⟩
    unfold Resumes at h
    dsimp only at h
    rw [hactive, hbody, htag] at h
    cases h with
    | outside h => exact .outside (splits_plainCut hplain h)
  | @held _ before held _ htrail hplain hcall =>
    rw [htrail]
    obtain ⟨hsplit, -⟩ := filter_eq_some_iff.1 htrail
    obtain ⟨heq, -, -⟩ := lastMatch_eq_some hsplit
    refine ⟨⟨fun _ => hbody, fun tagName h => ?_⟩, rfl, fun content reasoning h => ?_, hcall,
      .inr rfl⟩
    · rw [show s.activeTextualReasoningTag = some tagName from h] at hactive
      cases hactive
    · unfold Resumes at h
      dsimp only at h
      rw [hactive, hbody] at h
      cases h with
      | outside h =>
        have hall := splits_plainCut hplain h
        rw [← append_assoc, ← heq] at hall
        exact .outside hall
  | pending hopen' => rw [hopen] at hopen'; cases hopen'
  | block hopen' => rw [hopen] at hopen'; cases hopen'

/-- The loop, by induction on its rounds: outside an element the cases of `Uncut`, inside one the
search for its closing tag. -/
theorem accounts_consumeLoop (rounds : ℕ) (remaining : List Char) {s : State} (hs : Held s)
    (htag : s.textualReasoningTagBuffer = [])
    (hrounds : (s.textualReasoningContentBuffer ++ remaining).length < rounds)
    (hcut : UncutFrom parse s.textualToolCallBuffer later s.activeTextualReasoningTag
      (s.textualReasoningContentBuffer ++ remaining)) :
    Accounts parse s.textualToolCallBuffer s.activeTextualReasoningTag
      (s.textualReasoningContentBuffer ++ remaining) later
      (consumeLoop rounds remaining s : Consumed N) := by
  induction rounds generalizing remaining s with
  | zero => exact absurd hrounds (Nat.not_lt_zero _)
  | succ rounds ih =>
    cases remaining with
    | nil =>
      refine ⟨hs, rfl, fun content reasoning h => ?_, fun h => absurd rfl h, .inr rfl⟩
      unfold Resumes at h
      rw [consumeLoop] at h ⊢
      dsimp only at h ⊢
      rw [htag] at h
      rw [append_nil]
      exact h
    | cons c remaining =>
      cases hactive : s.activeTextualReasoningTag with
      | some tagName =>
        obtain ⟨hname, -⟩ := hs.inside tagName hactive
        rw [hactive] at hcut
        rw [consumeLoop]
        simp only [hactive]
        cases hclose : search (closeTagAt tagName)
          (s.textualReasoningContentBuffer ++ c :: remaining) with
        | none => exact accounts_bufferReasoning hactive hname htag hclose
        | some found =>
          obtain ⟨body, rest⟩ := found
          have hlen := length_search_close hclose
          obtain ⟨e, hstate⟩ := emitTextDelta_state (N := N) .reasoningContent body s
          dsimp only
          rw [hstate]
          refine Accounts.closed ?_ hclose (textOf_emitTextDelta _ _ _ _)
            (textOf_emitTextDelta _ _ _ _)
          exact ih rest (s := { s with
              hasEmittedContent := e
              activeTextualReasoningTag := none
              textualReasoningContentBuffer := [] })
            ⟨fun _ => rfl, nofun⟩ htag (by rw [nil_append]; omega) (hcut body rest hclose)
      | none =>
        have hbody := hs.outside hactive
        rw [hactive, hbody, nil_append] at hcut
        rw [hbody, nil_append] at hrounds
        rw [consumeLoop, hbody, nil_append]
        simp only [hactive]
        cases hopen : search reasoningTagAt (c :: remaining) with
        | none => exact accounts_returnPlain hs hactive htag hopen hcut
        | some found =>
          obtain ⟨before, tagName, afterOpen⟩ := found
          have hlen := length_search_open hopen
          have hname := isTagName_search hopen
          obtain ⟨hlater, hordered, hinside⟩ := Uncut.opened hcut hopen
          obtain ⟨e, hstate⟩ := emitTextDelta_state (N := N) .content (kept before) s
          dsimp only
          cases hclose : search (closeTagAt tagName) afterOpen with
          | none =>
            dsimp only
            rw [hstate]
            have hkept : Accounts parse s.textualToolCallBuffer (some tagName) afterOpen later
                ({ deltas := []
                   state := { s with
                     hasEmittedContent := e
                     activeTextualReasoningTag := some tagName
                     textualReasoningContentBuffer := afterOpen }
                   text := [] } : Consumed N) := by
              refine ⟨⟨nofun, fun tagName' h => ?_⟩, rfl, fun content reasoning h => ?_,
                fun h => absurd rfl h, .inr rfl⟩
              · cases h
                refine ⟨hname, ?_⟩
                show search _ (afterOpen ++ s.textualReasoningTagBuffer) = none
                rw [htag, append_nil]
                exact hclose
              · unfold Resumes at h
                dsimp only at h
                rw [htag] at h
                exact h
            have hopened := hkept.opened hlater hordered
              (textOf_emitTextDelta (N := N) .content .content (kept before) s)
              (textOf_emitTextDelta (N := N) .content .reasoningContent (kept before) s)
            rw [Consumed.after, append_nil] at hopened
            exact hopened
          | some inner =>
            obtain ⟨body, rest⟩ := inner
            have hshort := length_search_close hclose
            have hrest := hinside body rest hclose
            obtain ⟨e', hstate'⟩ := emitTextDelta_state (N := N) .reasoningContent body
              { s with hasEmittedContent := e }
            have hnext := ih rest (s := { s with hasEmittedContent := e' })
              ⟨fun _ => hbody, fun tagName h => by
                rw [show s.activeTextualReasoningTag = some tagName from h] at hactive
                cases hactive⟩ htag
              (by show (s.textualReasoningContentBuffer ++ rest).length < rounds
                  rw [hbody, nil_append]
                  omega)
              (by show UncutFrom _ _ _ s.activeTextualReasoningTag
                    (s.textualReasoningContentBuffer ++ rest)
                  rw [hactive, hbody]
                  exact hrest)
            dsimp only
            rw [hstate, hstate']
            generalize (consumeLoop rounds rest { s with hasEmittedContent := e' } :
              Consumed N) = r at hnext ⊢
            dsimp only at hnext
            rw [hactive, hbody, nil_append] at hnext
            have hclosed := hnext.closed hclose
              (textOf_emitTextDelta (N := N) .reasoningContent .content body
                { s with hasEmittedContent := e })
              (textOf_emitTextDelta (N := N) .reasoningContent .reasoningContent body
                { s with hasEmittedContent := e })
            have hopened := hclosed.opened hlater hordered
              (textOf_emitTextDelta (N := N) .content .content (kept before) s)
              (textOf_emitTextDelta (N := N) .content .reasoningContent (kept before) s)
            rw [Consumed.after, Consumed.after] at hopened
            rw [Consumed.after, append_assoc]
            exact hopened

theorem search_close_left {a b : List Char} (h : search (closeTagAt tagName) (a ++ b) = none) :
    search (closeTagAt tagName) a = none := by
  cases hs : search (closeTagAt tagName) a with
  | none => rfl
  | some found =>
    have hall := search_extend (b := found.1) (r := found.2) (reads_closeTagAt tagName) hs b
    rw [h] at hall
    cases hall

theorem accounts_consumeRemaining {s : State} (hs : Held s)
    (hcut : UncutFrom parse s.textualToolCallBuffer later s.activeTextualReasoningTag
      (s.textualReasoningContentBuffer ++ (s.textualReasoningTagBuffer ++ text))) :
    Accounts parse s.textualToolCallBuffer s.activeTextualReasoningTag
      (s.textualReasoningContentBuffer ++ (s.textualReasoningTagBuffer ++ text)) later
      (consumeRemaining text s : Consumed N) := by
  refine accounts_consumeLoop (s := { s with textualReasoningTagBuffer := [] }) _
    (s.textualReasoningTagBuffer ++ text) ⟨hs.outside, fun tagName h => ?_⟩ rfl ?_ hcut
  · obtain ⟨hname, hnone⟩ := hs.inside tagName h
    refine ⟨hname, ?_⟩
    show search _ (s.textualReasoningContentBuffer ++ []) = none
    rw [append_nil]
    exact search_close_left hnone
  · rw [length_append]
    exact Nat.lt_succ_self _

theorem afterFolded_eq_drop {literal rest : List Char} (h : afterFolded literal text = some rest) :
    rest = text.drop literal.length := by
  induction literal generalizing text with
  | nil =>
    cases h
    rfl
  | cons c literal ih =>
    cases text with
    | nil => cases h
    | cons d text =>
      rw [afterFolded] at h
      split at h
      · exact ih h
      · cases h

/-- The text completes the closing tag that waits, as `toLowerCase` sees it. -/
def CompletesClose (s : State) (text tagName : List Char) : Prop :=
  s.activeTextualReasoningTag = some tagName ∧
    ['<', '/'].isPrefixOf s.textualReasoningTagBuffer = true ∧
    (toLowerCase (closeTag tagName)).isPrefixOf
      (toLowerCase (s.textualReasoningTagBuffer ++ text)) = true

/-- The part can be read before `later`: a closing tag that it completes is one, and what is
returned behind it, or else all tags, are not cut. -/
structure ReadBefore (parse : List Char → Option (Json N)) (s : State) (text later : List Char) :
    Prop where
  tags : (∀ tagName, ¬CompletesClose s text tagName) →
    UncutFrom parse s.textualToolCallBuffer later s.activeTextualReasoningTag
      (s.textualReasoningContentBuffer ++ (s.textualReasoningTagBuffer ++ text))
  completed : ∀ tagName, CompletesClose s text tagName →
    ∃ rest, closeTagAt tagName (s.textualReasoningTagBuffer ++ text) = some rest ∧
      PlainCut rest rest [] later ∧
      (rest ≠ [] → CallFree parse (s.textualToolCallBuffer ++ rest))

/-- **One part.** What is sent, returned and kept is what the text says. -/
theorem consume_reads {s : State} (hs : Held s) (hread : ReadBefore parse s text later) :
    Accounts parse s.textualToolCallBuffer s.activeTextualReasoningTag
      (s.textualReasoningContentBuffer ++ (s.textualReasoningTagBuffer ++ text)) later
      (consumeTextualReasoningTags text s : Consumed N) := by
  unfold consumeTextualReasoningTags
  cases hactive : s.activeTextualReasoningTag with
  | none =>
    have hcut := hread.tags fun tagName h => by
      rw [h.1] at hactive
      cases hactive
    have hall := accounts_consumeRemaining (N := N) hs hcut
    rw [hactive] at hall
    exact hall
  | some tagName =>
    obtain ⟨hname, hnone⟩ := hs.inside tagName hactive
    have hother : (∀ tagName, ¬CompletesClose s text tagName) →
        Accounts parse s.textualToolCallBuffer (some tagName)
          (s.textualReasoningContentBuffer ++ (s.textualReasoningTagBuffer ++ text)) later
          (consumeRemaining text s : Consumed N) := by
      intro h
      rw [← hactive]
      exact accounts_consumeRemaining hs (hread.tags h)
    dsimp only
    split
    · next hprefix =>
      -- what waits begins with `<`, so no closing tag begins in the body
      obtain ⟨w, hw⟩ := isPrefixOf_iff_prefix.1 hprefix
      have hskip := search_append (clear_close hname.noLt (search_close_left hnone)
        ('/' :: (w ++ text)))
      have hcombined : '<' :: '/' :: (w ++ text) = s.textualReasoningTagBuffer ++ text := by
        rw [← hw]
        rfl
      rw [hcombined] at hskip
      split
      · next hlower =>
        obtain ⟨rest, hrest, hplain, hcall⟩ :=
          hread.completed tagName ⟨hactive, hprefix, hlower⟩
        rw [search_of_match hrest, map_some, append_nil] at hskip
        obtain ⟨e, hstate⟩ := emitTextDelta_state (N := N) .reasoningContent
          s.textualReasoningContentBuffer s
        rw [hstate, ← afterFolded_eq_drop hrest]
        have hbehind : Accounts parse s.textualToolCallBuffer none rest later
            ({ deltas := []
               state := { s with
                 hasEmittedContent := e
                 activeTextualReasoningTag := none
                 textualReasoningContentBuffer := []
                 textualReasoningTagBuffer := [] }
               text := rest } : Consumed N) := by
          refine ⟨⟨fun _ => rfl, nofun⟩, rfl, fun content reasoning h => ?_, hcall, .inr rfl⟩
          cases h with
          | outside h => exact .outside (splits_plainCut hplain h)
        have hclosed := hbehind.closed hskip
          (textOf_emitTextDelta (N := N) .reasoningContent .content _ s)
          (textOf_emitTextDelta (N := N) .reasoningContent .reasoningContent _ s)
        rw [Consumed.after, append_nil] at hclosed
        exact hclosed
      · next hlower =>
        split
        · next hlonger =>
          refine ⟨⟨nofun, fun tagName' h => ?_⟩, rfl, fun content reasoning h => ?_,
            fun h => absurd rfl h, .inr rfl⟩
          · cases h
            refine ⟨hname, ?_⟩
            obtain ⟨missing, hmissing⟩ := isPrefixOf_iff_prefix.1 hlonger
            have hne : missing ≠ [] := by
              rintro rfl
              rw [append_nil] at hmissing
              exact hlower ( isPrefixOf_iff_prefix.2 ⟨[], by rw [hmissing, append_nil]⟩)
            have htotal := congrArg length hmissing
            have hle := length_le_toLowerCase (s.textualReasoningTagBuffer ++ text)
            have hclose : (toLowerCase (closeTag tagName)).length = (closeTag tagName).length := by
              rw [closeTag, toLowerCase_append, toLowerCase_append, length_append,
                length_append, hname.lower, length_append, length_append]
              rfl
            have hpos := length_pos_iff.2 hne
            rw [length_append, hclose] at htotal
            show search _ (s.textualReasoningContentBuffer ++
              (s.textualReasoningTagBuffer ++ text)) = none
            rw [hskip, search_short (reads_closeTagAt tagName) (by omega), map_none]
          · unfold Resumes at h
            dsimp only at h
            rw [append_assoc s.textualReasoningTagBuffer] at h
            rw [append_assoc, append_assoc]
            exact h
        · refine hother fun tagName' h => hlower ?_
          obtain rfl := some.inj (hactive.symm.trans h.1)
          exact h.2.2
    · next hprefix => exact hother fun tagName' h => hprefix h.2.1

end Part

end OmniRoute.GeminiStream
